/-
# What facts say about tensors

A fact admits the tensors that have its datatype, its extents and its value, as
far as it knows them; a streamed dimension is of no extent. That is the order of
facts again: a fact admits a tensor exactly if all there is to know about the
tensor refines it (`TensorFact.admits_iff_refines`). What an operator infers from
all there is to know about its inputs and its output it admits itself
(`Operator.refine_ofTensor`), so no inference excludes what can be computed.

Key definitions: `DimFact.Admits`, `ShapeFact.Admits`, `TensorFact.Admits`.
Key theorems: `TensorFact.admits_iff_refines`, `broadcastShapes_ofExtents`,
`Operator.refine_ofTensor`.
-/
import EdgeFacts.Proofs.Monotone

namespace EdgeFacts

/-- Whether an extent is among those that a fact allows. -/
def DimFact.Admits : DimFact → Nat → Prop
  | any, _ => True
  | streamed, _ => False
  | known m, n => m = n

/-- Whether extents are among those that a fact allows: the first ones suit its
dimensions, and there are no others if the shape is closed. -/
structure ShapeFact.Admits (s : ShapeFact) (extents : List Nat) : Prop where
  dims : List.Forall₂ DimFact.Admits s.dims (extents.take s.dims.length)
  closed : s.isOpen = false → extents.length = s.dims.length

/-- Whether a tensor is among those that a fact describes. -/
structure TensorFact.Admits (f : TensorFact) (t : Tensor) : Prop where
  dtype : ∀ d, f.dtype = some d → d = .elem t.elem
  shape : f.shape.Admits t.shape
  value : ∀ v, f.value = some v → v.same t = true

theorem DimFact.admits_iff_refines {d : DimFact} {n : Nat} :
    d.Admits n ↔ (DimFact.known n).Refines d := by
  cases d <;> simp [Admits, Refines, eq_comm]

namespace ShapeFact

theorem dimsRefine_known_iff {p : Bool} {ds : List DimFact} {extents : List Nat} :
    DimsRefine p (extents.map .known) ds ↔
      List.Forall₂ DimFact.Admits ds (extents.take ds.length) ∧
        (p = false → extents.length = ds.length) := by
  induction ds generalizing extents with
  | nil => cases p <;> cases extents <;> simp [DimsRefine]
  | cons d ds ih =>
    cases extents with
    | nil => simp [DimsRefine]
    | cons n extents => simp [DimsRefine, DimFact.admits_iff_refines, ih, and_assoc]

theorem admits_iff_refines {s : ShapeFact} {extents : List Nat} :
    s.Admits extents ↔ (ofExtents extents).Refines s := by
  constructor
  · intro h
    exact ⟨fun _ => rfl, dimsRefine_known_iff.2 ⟨h.dims, h.closed⟩⟩
  · intro h
    obtain ⟨hd, hc⟩ := dimsRefine_known_iff.1 h.dims
    exact ⟨hd, hc⟩

end ShapeFact

namespace TensorFact

theorem admits_iff_refines {f : TensorFact} {t : Tensor} :
    f.Admits t ↔ (ofTensor t).Refines f := by
  constructor
  · intro h
    refine ⟨fun d hd => ?_, ShapeFact.admits_iff_refines.1 h.shape, fun v hv => ?_⟩
    · rw [h.dtype d hd]
      rfl
    · exact ⟨t, rfl, Tensor.same_symm (h.value v hv)⟩
  · intro h
    refine ⟨fun d hd => ?_, ShapeFact.admits_iff_refines.2 h.shape, fun v hv => ?_⟩
    · exact (Option.some.inj (h.dtype d hd)).symm
    · obtain ⟨u, hu, huv⟩ := h.value v hv
      cases hu
      exact Tensor.same_symm huv

theorem ofTensor_refines {t u : Tensor} (h : t.same u = true) :
    (ofTensor t).Refines (ofTensor u) := by
  refine ⟨?_, ?_, fun v hv => ?_⟩
  · simp only [ofTensor, Tensor.elem_of_same h]
    exact dtypeRefines_refl _
  · simp only [ofTensor, Tensor.shape_of_same h]
    exact .refl _
  · cases hv
    exact ⟨t, rfl, h⟩

end TensorFact

/-! ### Inference from all there is to know -/

theorem mapM_value_ofTensor (ts : List Tensor) :
    (ts.map TensorFact.ofTensor).mapM TensorFact.value = some ts := by
  rw [mapM_eq_some_iff, List.forall₂_map_left_iff]
  exact List.forall₂_same.2 fun _ _ => rfl

theorem knownOutput_ofTensor {op : Operator} {ts : List Tensor} {t : Tensor}
    (h : op.eval ts = .ok t) : knownOutput op (ts.map TensorFact.ofTensor) = .ok (some t) := by
  simp only [knownOutput, mapM_value_ofTensor, h]
  rfl

theorem broadcastDim_known {a b n : Nat} (h : broadcastExtent? a b = some n) :
    broadcastDim (.known a) (.known b) = .ok (.known n) := by
  unfold broadcastExtent? at h
  unfold broadcastDim
  grind

theorem broadcastDims_known {as bs cs : List Nat} (h : broadcastReversed? as bs = some cs) :
    broadcastDims (as.map .known) (bs.map .known) = .ok (cs.map .known) := by
  induction as generalizing bs cs with
  | nil => cases h; rfl
  | cons a as ih =>
    cases bs with
    | nil => cases h; rfl
    | cons b bs =>
      simp only [broadcastReversed?] at h
      split at h
      · rename_i n rest hn hrest
        cases h
        simp only [List.map_cons, broadcastDims, broadcastDim_known hn, ih hrest]
        rfl
      · cases h

/-- Known shapes broadcast to the shape that the tensors broadcast to. -/
theorem broadcastShapes_ofExtents {a b c : List Nat} (h : broadcastExtents a b = some c) :
    broadcastShapes (.ofExtents a) (.ofExtents b) = .ok (.ofExtents c) := by
  obtain ⟨cs, hcs, rfl⟩ := Option.map_eq_some_iff.1 h
  simp [broadcastShapes, ShapeFact.ofExtents, ShapeFact.closed, ← List.map_reverse,
    broadcastDims_known hcs, bind, Except.bind, pure, Except.pure]

/-- All there is to know about some inputs and an output, as an inference. -/
def Refinement.ofTensors (ts : List Tensor) (t : Tensor) : Refinement :=
  (ts.map .ofTensor, some (.ofTensor t))

theorem refineElementwise_ofTensor {op : Operator} {invertible : Bool} {x t u : Tensor}
    (he : op.eval [x] = .ok u) (hu : u.same t = true) (helem : u.elem = x.elem)
    (hshape : u.shape = x.shape) (hinv : invertible = true → u = x) :
    ∃ r, refineElementwise op invertible (.ofTensor x) (.ofTensor t) = .ok r ∧
      RefinementRefines (.ofTensors [x] t) r := by
  have he' : t.elem = x.elem := by rw [← Tensor.elem_of_same hu, helem]
  have hs' : t.shape = x.shape := by rw [← Tensor.shape_of_same hu, hshape]
  have hxt : (TensorFact.ofTensor x).withoutValue = (TensorFact.ofTensor t).withoutValue := by
    simp only [TensorFact.withoutValue, TensorFact.ofTensor, he', hs']
  obtain ⟨m, hm, hxm⟩ := TensorFact.isMeet.greatest (.refl (TensorFact.ofTensor x).withoutValue)
    (.refl (TensorFact.ofTensor x).withoutValue)
  have hv := knownOutput_ofTensor he
  have back : ValueRefines (some x) (if invertible then some t else none) := by
    cases invertible with
    | true => exact fun v hv => ⟨x, rfl, by cases hv; rw [← hinv rfl]; exact hu⟩
    | false => exact valueRefines_none _
  have out : (TensorFact.ofTensor t).withoutValue.Refines m := hxt ▸ hxm
  have value : ValueRefines (some t) (some u) :=
    fun v hv => ⟨t, rfl, by cases hv; exact Tensor.same_symm hu⟩
  have hr : refineElementwise op invertible (.ofTensor x) (.ofTensor t) =
      .ok ([{ m with value := if invertible then some t else none }], some { m with value := some u }) := by
    simp only [refineElementwise, bind_eq_ok_iff, pure_eq_ok]
    exact ⟨m, hxt ▸ hm, some u, hv, rfl⟩
  exact ⟨_, hr, .cons ⟨hxm.dtype, hxm.shape, back⟩ .nil, _, _, rfl, rfl, out.dtype, out.shape, value⟩

theorem refineAdd_ofTensor {a b t u : Tensor} (he : a.add b = .ok u) (hu : u.same t = true)
    (hab : a.elem = b.elem) :
    ∃ r, refineAdd (.ofTensor a) (.ofTensor b) (.ofTensor t) = .ok r ∧
      RefinementRefines (.ofTensors [a, b] t) r := by
  have heval : Operator.add.eval [a, b] = .ok u := ofKernel_eq_ok_iff.2 he
  have hv := knownOutput_ofTensor heval
  unfold Tensor.add at he
  split at he
  · cases he
  · rename_i shape hshape
    have helem : t.elem = b.elem := by
      rw [← Tensor.elem_of_same hu, ← Except.ok.inj he]
      simp only [Tensor.ofFn, hab, ElemType.promote_self]
    have hts : t.shape = shape := by
      rw [← Tensor.shape_of_same hu, ← Except.ok.inj he]
      rfl
    subst hts
    have hmeet : (ShapeFact.ofExtents t.shape).meet (.ofExtents t.shape) = .ok (.ofExtents t.shape) := by
      simp [ShapeFact.meet, ShapeFact.meet?_self, orFail]
    have operand (x : Tensor) (hx : x.elem = b.elem) :
        (TensorFact.ofTensor x).Refines (.ofShape (some (.elem b.elem)) .unknown) :=
      ⟨by simp only [TensorFact.ofTensor, hx]; exact dtypeRefines_refl _,
        ShapeFact.refines_unknown _, valueRefines_none _⟩
    have output : (TensorFact.ofTensor t).Refines
        ⟨some (.elem b.elem), .ofExtents t.shape, some u⟩ :=
      ⟨by simp only [TensorFact.ofTensor, helem]; exact dtypeRefines_refl _, .refl _,
        fun v hv => ⟨t, rfl, by cases hv; exact Tensor.same_symm hu⟩⟩
    have hr : refineAdd (.ofTensor a) (.ofTensor b) (.ofTensor t) =
        .ok ([.ofShape (some (.elem b.elem)) .unknown, .ofShape (some (.elem b.elem)) .unknown],
          some ⟨some (.elem b.elem), .ofExtents t.shape, some u⟩) := by
      simp only [refineAdd, bind_eq_ok_iff, pure_eq_ok]
      exact ⟨some (.elem b.elem), by simp [TensorFact.ofTensor, meetDType, hab],
        some (.elem b.elem), by simp [TensorFact.ofTensor, meetDType, helem], _,
        broadcastShapes_ofExtents hshape, _, hmeet, _, hv, rfl⟩
    exact ⟨_, hr, .cons (operand a hab) (.cons (operand b rfl) .nil), _, _, rfl, rfl, output⟩

theorem position?_of_axis? {e : AxisEntry} {n : Nat} (h : e.axis? = some n) :
    e.position? = some n := by
  cases e with
  | whole m => exact h
  | _ => cases h

theorem positions_of_axes {entries : List AxisEntry} {axes : List Nat}
    (h : entries.mapM AxisEntry.axis? = some axes) : positions entries = .ok axes := by
  rw [mapM_eq_some_iff] at h
  have hp : entries.mapM AxisEntry.position? = some axes :=
    mapM_eq_some_iff.2 (h.imp fun _ _ => position?_of_axis?)
  simp only [positions, hp]

/-- The axes of a transposition are all axes of its rank in some order. -/
theorem permFor_perm {perm : Option (List AxisEntry)} (hop : (Operator.transpose perm).IsLibrary)
    {rank : Nat} {entries : List AxisEntry} {axes : List Nat} (h : permFor perm rank = .ok entries)
    (ha : entries.mapM AxisEntry.position? = some axes) : axes.Perm (List.range rank) := by
  cases perm with
  | none =>
    cases h
    rw [List.mapM_map] at ha
    have hid : (List.range rank).reverse.mapM (m := Option) some = some axes := ha
    rw [mapM_eq_some_iff] at hid
    have : axes = (List.range rank).reverse := by
      have := List.forall₂_eq_eq_eq ▸ hid.imp fun _ _ h => Option.some.inj h
      exact this.symm
    rw [this]
    exact List.reverse_perm _
  | some es =>
    simp only [permFor] at h
    split at h
    · rename_i hl
      cases h
      exact hl ▸ hop axes ha
    · cases h

theorem refineTransposedShapes_ofExtents {perm : Option (List AxisEntry)}
    (hop : (Operator.transpose perm).IsLibrary) {s : List Nat} {entries : List AxisEntry}
    {axes : List Nat} (hp : permFor perm s.length = .ok entries)
    (ha : entries.mapM AxisEntry.axis? = some axes) :
    ∃ x y, refineTransposedShapes perm (.ofExtents s) (.ofExtents (axes.map fun p => s.getD p 0)) =
        .ok (x, y) ∧ (ShapeFact.ofExtents s).Refines x ∧
      (ShapeFact.ofExtents (axes.map fun p => s.getD p 0)).Refines y := by
  have hpos : positions entries = .ok axes := positions_of_axes ha
  have hperm : axes.Perm (List.range s.length) := by
    rw [mapM_eq_some_iff] at ha
    exact permFor_perm hop hp (mapM_eq_some_iff.2 (ha.imp fun _ _ => position?_of_axis?))
  have hlen : axes.length = s.length := by simpa using hperm.length_eq
  have hmem : ∀ p ∈ axes, p < s.length := fun p h => List.mem_range.1 (hperm.mem_iff.1 h)
  generalize hs' : (axes.map fun p => s.getD p 0) = s'
  have hlen' : s'.length = s.length := by rw [← hs', List.length_map, hlen]
  have rank_refines (t : List Nat) (ht : t.length = s.length) :
      (ShapeFact.ofExtents t).Refines (.ofRank s.length) := by
    refine ShapeFact.closed_refines_closed_iff.2 (List.forall₂_iff_get.2 ⟨by simp [ht], fun i _ _ => ?_⟩)
    simp only [List.get_eq_getElem, List.getElem_replicate]
    exact DimFact.refines_any _
  obtain ⟨x₁, hx₁, hsx₁⟩ := ShapeFact.isMeet.greatest (.refl _) (rank_refines s rfl)
  obtain ⟨y₁, hy₁, hsy₁⟩ := ShapeFact.isMeet.greatest (.refl _) (rank_refines s' hlen')
  have forward : (ShapeFact.ofExtents s').Refines (.closed (axes.map fun p => x₁.dims.getD p .any)) := by
    have h := forall₂_map_getD hsx₁.dims axes
    have : axes.map (fun p => (ShapeFact.ofExtents s).dims.getD p .any) = s'.map .known := by
      rw [← hs', List.map_map]
      refine List.map_congr_left fun p hp => ?_
      simp [ShapeFact.ofExtents, ShapeFact.closed, hmem p hp]
    rw [this] at h
    exact ShapeFact.closed_refines_closed_iff.2 h
  obtain ⟨y₂, hy₂, hsy₂⟩ := ShapeFact.isMeet.greatest hsy₁ forward
  have back : (ShapeFact.ofExtents s).Refines
      (.closed ((List.range s.length).map fun k => y₂.dims.getD (axes.idxOf k) .any)) := by
    have h := forall₂_map_getD hsy₂.dims ((List.range s.length).map fun k => axes.idxOf k)
    simp only [List.map_map, Function.comp_def] at h
    have : (List.range s.length).map (fun k => (ShapeFact.ofExtents s').dims.getD (axes.idxOf k) .any) =
        s.map .known := by
      refine List.ext_getElem (by simp) fun k hk _ => ?_
      have hk' : k < s.length := by simpa using hk
      have hi : axes.idxOf k < axes.length :=
        List.idxOf_lt_length_of_mem (hperm.mem_iff.2 (List.mem_range.2 hk'))
      simp [ShapeFact.ofExtents, ShapeFact.closed, ← hs', hi, List.getElem_idxOf, hk']
    rw [this] at h
    exact ShapeFact.closed_refines_closed_iff.2 h
  obtain ⟨x₂, hx₂, hsx₂⟩ := ShapeFact.isMeet.greatest hsx₁ back
  have hrank : transposedRank? perm (.ofExtents s) (.ofExtents s') = some s.length := by
    simp [transposedRank?, ShapeFact.rank?, ShapeFact.ofExtents, ShapeFact.closed]
  refine ⟨x₂, y₂, ?_, hsx₂, hsy₂⟩
  simp only [refineTransposedShapes, hrank, bind_eq_ok_iff, pure_eq_ok]
  exact ⟨entries, hp, x₁, hx₁, y₁, hy₁, axes, hpos, y₂, hy₂, x₂, hx₂, rfl⟩

theorem transposeTensor_eq_ok_iff {perm : Option (List AxisEntry)} {x t : Tensor} :
    transposeTensor perm x = .ok t ↔ ∃ entries axes, permFor perm x.rank = .ok entries ∧
      entries.mapM AxisEntry.axis? = some axes ∧ x.permute axes = t := by
  simp only [transposeTensor, bind_eq_ok_iff]
  refine exists_congr fun entries => ?_
  cases entries.mapM AxisEntry.axis? <;> simp [pure, Except.pure, throw, throwThe, MonadExceptOf.throw]

theorem refineTranspose_ofTensor {perm : Option (List AxisEntry)}
    (hop : (Operator.transpose perm).IsLibrary) {x t u : Tensor}
    (he : transposeTensor perm x = .ok u) (hu : u.same t = true) :
    ∃ r, refineTranspose perm (.ofTensor x) (.ofTensor t) = .ok r ∧
      RefinementRefines (.ofTensors [x] t) r := by
  have heval : (Operator.transpose perm).eval [x] = .ok u := he
  have hv := knownOutput_ofTensor heval
  obtain ⟨entries, axes, hp, ha, rfl⟩ := transposeTensor_eq_ok_iff.1 he
  have helem : t.elem = x.elem := (Tensor.elem_of_same hu).symm
  have hshape : t.shape = axes.map fun p => x.shape.getD p 0 := (Tensor.shape_of_same hu).symm
  obtain ⟨before, after, hba, hxb, hta⟩ := refineTransposedShapes_ofExtents hop hp ha
  have hr : refineTranspose perm (.ofTensor x) (.ofTensor t) =
      .ok ([.ofShape (some (.elem x.elem)) before],
        some ⟨some (.elem x.elem), after, some (x.permute axes)⟩) := by
    simp only [refineTranspose, bind_eq_ok_iff, pure_eq_ok]
    refine ⟨some (.elem x.elem), by simp [TensorFact.ofTensor, meetDType, helem], (before, after), ?_,
      _, hv, rfl⟩
    simp only [TensorFact.ofTensor, hshape]
    exact hba
  refine ⟨_, hr, .cons ⟨dtypeRefines_refl _, hxb, valueRefines_none _⟩ .nil, _, _, rfl, rfl, ?_⟩
  refine ⟨?_, ?_, fun v hv => ⟨t, rfl, by cases hv; exact Tensor.same_symm hu⟩⟩
  · simp only [TensorFact.ofTensor, helem]
    exact dtypeRefines_refl _
  · simp only [TensorFact.ofTensor, hshape]
    exact hta

/-- What it takes for two tensors to be convolved. -/
theorem convolveTensors_eq_ok {sums : Contraction} {strideH strideW : Nat} {x k u : Tensor}
    (h : convolveTensors sums strideH strideW x k = .ok u) :
    ∃ n hx wx c hk wk o, x.shape = [n, hx, wx, c] ∧ k.shape = [hk, wk, c, o] ∧ hk ≤ hx ∧ wk ≤ wx ∧
      0 < strideH ∧ 0 < strideW ∧ x.convolve k sums strideH strideW = .ok u ∧
      u.elem = x.elem.promote k.elem ∧
      u.shape = [n, Tensor.windowCount hx hk strideH, Tensor.windowCount wx wk strideW, o] := by
  unfold convolveTensors at h
  split at h
  · rename_i n hx wx c hk wk kc o hxs hks
    split at h
    · rename_i hc
      have hconv := ofKernel_eq_ok_iff.1 h
      have heq := hconv
      simp only [Tensor.convolve, hxs, hks] at heq
      split at heq
      · cases heq
      · rename_i hfits
        cases heq
        refine ⟨n, hx, wx, c, hk, wk, o, hxs, by rw [hks, hc], ?_⟩
        exact ⟨by omega, by omega, by omega, by omega, hconv, rfl, rfl⟩
    · cases h
  · cases h

theorem convolvedDim_known {d k stride : Nat} (h : k ≤ d) (hs : 0 < stride) :
    convolvedDim (.known d) (.known k) stride = .ok (.known (Tensor.windowCount d k stride)) := by
  simp [convolvedDim, Nat.not_lt.2 h, Nat.ne_of_gt hs]

theorem meet_self (d : DimFact) : d.meet d = .ok d := by
  simp [DimFact.meet, DimFact.meet?_self, orFail]

theorem fourDims_ofExtents (a b c d : Nat) :
    fourDims (.ofExtents [a, b, c, d]) = .ok (.known a, .known b, .known c, .known d) := rfl

theorem refineConvolution_ofTensor {sums : Contraction} {strideH strideW : Nat} {x k t u : Tensor}
    (he : convolveTensors sums strideH strideW x k = .ok u) (hu : u.same t = true)
    (hxk : x.elem = k.elem) :
    ∃ r, refineConvolution sums strideH strideW (.ofTensor x) (.ofTensor k) (.ofTensor t) = .ok r ∧
      RefinementRefines (.ofTensors [x, k] t) r := by
  have heval : (Operator.convolution sums strideH strideW).eval [x, k] = .ok u := he
  have hv := knownOutput_ofTensor heval
  obtain ⟨n, hx, wx, c, hk, wk, o, hxs, hks, hh, hw, hsh, hsw, -, hue, hus⟩ := convolveTensors_eq_ok he
  have helem : t.elem = k.elem := by
    rw [← Tensor.elem_of_same hu, hue, hxk, ElemType.promote_self]
  have hts := (Tensor.shape_of_same hu).symm.trans hus
  have hr : refineConvolution sums strideH strideW (.ofTensor x) (.ofTensor k) (.ofTensor t) =
      .ok ([.ofShape (some (.elem k.elem)) (.ofExtents x.shape),
          .ofShape (some (.elem k.elem)) (.ofExtents k.shape)],
        some ⟨some (.elem k.elem), .ofExtents t.shape, some u⟩) := by
    simp only [refineConvolution, bind_eq_ok_iff, pure_eq_ok]
    refine ⟨some (.elem k.elem), by simp [TensorFact.ofTensor, meetDType, hxk],
      some (.elem k.elem), by simp [TensorFact.ofTensor, meetDType, helem],
      (.known n, .known hx, .known wx, .known c), by rw [TensorFact.ofTensor, hxs, fourDims_ofExtents],
      (.known hk, .known wk, .known c, .known o), by rw [TensorFact.ofTensor, hks, fourDims_ofExtents],
      (.known n, .known (Tensor.windowCount hx hk strideH), .known (Tensor.windowCount wx wk strideW),
        .known o), by rw [TensorFact.ofTensor, hts, fourDims_ofExtents],
      .known n, meet_self _, .known c, meet_self _, .known o, meet_self _,
      _, convolvedDim_known hh hsh, _, meet_self _, _, convolvedDim_known hw hsw, _, meet_self _,
      _, hv, ?_⟩
    rw [hxs, hks, hts]
    rfl
  have operand (y : Tensor) (hy : y.elem = k.elem) :
      (TensorFact.ofTensor y).Refines (.ofShape (some (.elem k.elem)) (.ofExtents y.shape)) :=
    ⟨by simp only [TensorFact.ofTensor, hy]; exact dtypeRefines_refl _, .refl _, valueRefines_none _⟩
  have output : (TensorFact.ofTensor t).Refines
      ⟨some (.elem k.elem), .ofExtents t.shape, some u⟩ :=
    ⟨by simp only [TensorFact.ofTensor, helem]; exact dtypeRefines_refl _, .refl _,
      fun v hv => ⟨t, rfl, by cases hv; exact Tensor.same_symm hu⟩⟩
  exact ⟨_, hr, .cons (operand x hxk) (.cons (operand k rfl) .nil), _, _, rfl, rfl, output⟩

namespace Operator

/-- Whether the operands of an operator that combines two have one element type. -/
def HasOneType (op : Operator) (inputs : List Tensor) : Prop :=
  match op, inputs with
  | add, [a, b] | convolution _ _ _, [a, b] => a.elem = b.elem
  | _, _ => True

/-- **Inference admits what is computed.** From all there is to know about its
inputs and its output an operator of the library infers only what these admit. -/
theorem refine_ofTensor {op : Operator} (hop : op.IsLibrary) {ts : List Tensor} {t u : Tensor}
    (he : op.eval ts = .ok u) (hu : u.same t = true) (ht : op.HasOneType ts) :
    ∃ r, op.refine (ts.map .ofTensor) (.ofTensor t) = .ok r ∧ RefinementRefines (.ofTensors ts t) r := by
  cases op with
  | custom c => exact hop.elim
  | const value =>
    rcases ts with _ | ⟨x, ts⟩
    · cases he
      exact ⟨_, rfl, .nil, _, _, rfl, rfl, TensorFact.ofTensor_refines (Tensor.same_symm hu)⟩
    · cases he
  | placeholder fact => cases he
  | identity =>
    rcases ts with _ | ⟨x, _ | ⟨y, ts⟩⟩
    · cases he
    · cases he
      exact refineElementwise_ofTensor rfl hu rfl rfl fun _ => rfl
    · cases he
  | relu =>
    rcases ts with _ | ⟨x, _ | ⟨y, ts⟩⟩
    · cases he
    · cases he
      exact refineElementwise_ofTensor rfl hu rfl rfl fun h => nomatch h
    · cases he
  | transpose perm =>
    rcases ts with _ | ⟨x, _ | ⟨y, ts⟩⟩
    · cases he
    · exact refineTranspose_ofTensor hop he hu
    · cases he
  | add =>
    rcases ts with _ | ⟨x, _ | ⟨y, _ | ⟨z, ts⟩⟩⟩
    · cases he
    · cases he
    · exact refineAdd_ofTensor (ofKernel_eq_ok_iff.1 he) hu ht
    · cases he
  | convolution sums strideH strideW =>
    rcases ts with _ | ⟨x, _ | ⟨y, _ | ⟨z, ts⟩⟩⟩
    · cases he
    · cases he
    · exact refineConvolution_ofTensor he hu ht
    · cases he

end Operator

end EdgeFacts
