/-
# Prediction of types and shapes

An operator that is told the types and the shapes of its inputs, and nothing of
their values, accepts them exactly if it can compute from such inputs, and then
infers the type and the shape of what it computes (`Operator.refine_predicts`).
One direction is monotonicity: all there is to know about inputs from which
something is computed is accepted, so less is accepted too. The other one reads
each rule back on known extents: shapes that broadcast as facts broadcast as
tensors, a permutation of a fact's rank is one of the tensor's, and a filter that
fits the data as facts fits it as tensors.

Both hold for operands of one type, and for attributes that are whole numbers:
the axes of a permutation may be spelled otherwise, which inference takes and
evaluation refuses. Operators built from whole numbers are of that kind.

Key definitions: `TensorFact.typeOf`, `Operator.Predictable`.
Key theorems: `Operator.eval_of_refine`, `Operator.refine_of_eval`,
`Operator.refine_predicts`.
-/
import EdgeFacts.Proofs.Build
import EdgeFacts.Proofs.Forward

namespace EdgeFacts

/-- The fact that knows the type and the shape of a tensor, and not its value. -/
def TensorFact.typeOf (t : Tensor) : TensorFact := (ofTensor t).withoutValue

theorem TensorFact.types_typeOf (t : Tensor) : (typeOf t).Types t := ⟨rfl, rfl⟩

theorem TensorFact.forall₂_types_typeOf (ts : List Tensor) : List.Forall₂ Types (ts.map typeOf) ts :=
  List.forall₂_map_left_iff.2 (List.forall₂_same.2 fun t _ => types_typeOf t)

theorem TensorFact.ofTensor_refines_typeOf (t : Tensor) : (ofTensor t).Refines (typeOf t) :=
  ⟨dtypeRefines_refl _, .refl _, valueRefines_none _⟩

/-! ### Rules on known extents -/

theorem broadcastExtent?_of_known {a b : Nat} {d : DimFact} (h : broadcastDim (.known a) (.known b) = .ok d) :
    ∃ n, broadcastExtent? a b = some n := by
  by_cases ha : a = 1
  · exact ⟨b, by grind [broadcastExtent?]⟩
  · by_cases hb : b = 1
    · exact ⟨a, by grind [broadcastExtent?]⟩
    · by_cases hab : a = b
      · exact ⟨a, if_pos hab⟩
      · simp [broadcastDim, ha, hb, hab] at h

theorem broadcastReversed?_of_known : ∀ {as bs : List Nat} {ds : List DimFact},
    broadcastDims (as.map .known) (bs.map .known) = .ok ds → ∃ cs, broadcastReversed? as bs = some cs
  | [], bs, _, _ => ⟨bs, rfl⟩
  | a :: as, [], _, _ => ⟨a :: as, rfl⟩
  | a :: as, b :: bs, ds, h => by
    simp only [List.map_cons, broadcastDims, bind_eq_ok_iff] at h
    obtain ⟨d, hd, rest, hrest, -⟩ := h
    obtain ⟨n, hn⟩ := broadcastExtent?_of_known hd
    obtain ⟨cs, hcs⟩ := broadcastReversed?_of_known hrest
    exact ⟨n :: cs, by simp only [broadcastReversed?, hn, hcs]⟩

theorem add_of_broadcastShapes {x k : Tensor} {s : ShapeFact}
    (h : broadcastShapes (.ofExtents x.shape) (.ofExtents k.shape) = .ok s) : ∃ t, x.add k = .ok t := by
  simp only [broadcastShapes, ShapeFact.ofExtents, ShapeFact.closed, Bool.or_self, Bool.false_eq_true, if_false,
    ← List.map_reverse, bind_eq_ok_iff] at h
  obtain ⟨ds, hds, -⟩ := h
  obtain ⟨cs, hcs⟩ := broadcastReversed?_of_known hds
  exact ⟨_, Tensor.add_eq_ok_iff.2 ⟨cs.reverse, by rw [broadcastExtents, hcs, Option.map_some], rfl⟩⟩

/-- The dimensions of known extents are four only if the extents are. -/
theorem fourDims_ofExtents_eq_ok {s : List Nat} {q : DimFact × DimFact × DimFact × DimFact}
    (h : fourDims (.ofExtents s) = .ok q) :
    ∃ a b c d, s = [a, b, c, d] ∧ q = (.known a, .known b, .known c, .known d) := by
  have hmeet := (ShapeFact.isMeet.lower (fourDims_eq_ok.1 h)).1.eq_ofExtents
  have hdims : s.map .known = [q.1, q.2.1, q.2.2.1, q.2.2.2] := (congrArg ShapeFact.dims hmeet).symm
  obtain ⟨a, s, rfl, ha, hs⟩ := List.map_eq_cons_iff.1 hdims
  obtain ⟨b, s, rfl, hb, hs⟩ := List.map_eq_cons_iff.1 hs
  obtain ⟨c, s, rfl, hc, hs⟩ := List.map_eq_cons_iff.1 hs
  obtain ⟨d, s, rfl, hd, hs⟩ := List.map_eq_cons_iff.1 hs
  refine ⟨a, b, c, d, by rw [List.map_eq_nil_iff.1 hs], ?_⟩
  rw [ha, hb, hc, hd]

theorem le_of_convolvedDim {d k stride : Nat} {e : DimFact}
    (h : convolvedDim (.known d) (.known k) stride = .ok e) : k ≤ d := by
  by_contra hlt
  have hsmall : d < k := Nat.lt_of_not_le hlt
  simp [convolvedDim, hsmall] at h

theorem eq_of_meet_known {c k : Nat} {e : DimFact} (h : DimFact.meet (.known c) (.known k) = .ok e) : c = k := by
  obtain ⟨hc, hk⟩ := DimFact.isMeet.lower h
  rcases hc with hc | hc
  · cases hc
  · rcases hk with hk | hk
    · cases hk
    · exact DimFact.known.inj (hc.symm.trans hk)

theorem convolveTensors_of_shapes {sums : Contraction} {strideH strideW : Nat} (hh : 0 < strideH)
    (hw : 0 < strideW) {x k : Tensor} {sy sx' sk' sy' : ShapeFact}
    (h : ConvolvedShapes strideH strideW (.ofExtents x.shape) (.ofExtents k.shape) sy sx' sk' sy') :
    ∃ t, convolveTensors sums strideH strideW x k = .ok t := by
  obtain ⟨xn, xh, xw, xc, kh, kw, kc, ko, _, _, _, _, _, channels, _, h₁, _, w₁, _, hx, hk, -, -, hc, -, hh₁, -,
    hw₁, -, -, -, -⟩ := h
  obtain ⟨n, d, e, c, hxs, hq⟩ := fourDims_ofExtents_eq_ok hx
  cases hq
  obtain ⟨i, j, c', o, hks, hq⟩ := fourDims_ofExtents_eq_ok hk
  cases hq
  have hi : i ≤ d := le_of_convolvedDim hh₁
  have hj : j ≤ e := le_of_convolvedDim hw₁
  have hfits : ¬(d < i ∨ e < j ∨ strideH = 0 ∨ strideW = 0) := by omega
  simp only [convolveTensors, hxs, hks, if_pos (eq_of_meet_known hc), Tensor.convolve, if_neg hfits]
  exact ⟨_, rfl⟩

/-! ### Operators -/

namespace Operator

/-- The operators that compute from inputs alone and whose attributes are whole
numbers: all axes of a permutation in some order, and strides above zero. -/
def Predictable : Operator → Prop
  | identity | relu | add | transpose none => True
  | transpose (some perm) => ∃ axes : List Nat, perm = axes.map .whole ∧ axes.Perm (List.range axes.length)
  | convolution _ strideH strideW => 0 < strideH ∧ 0 < strideW
  | const _ | placeholder _ | custom _ => False

theorem mapM_axis?_whole (axes : List Nat) : (axes.map AxisEntry.whole).mapM AxisEntry.axis? = some axes := by
  rw [mapM_eq_some_iff, List.forall₂_map_left_iff]
  exact List.forall₂_same.2 fun _ _ => rfl

theorem mapM_position?_whole (axes : List Nat) :
    (axes.map AxisEntry.whole).mapM AxisEntry.position? = some axes := by
  rw [mapM_eq_some_iff, List.forall₂_map_left_iff]
  exact List.forall₂_same.2 fun _ _ => rfl

theorem build_transpose_predictable {perm : List Int} {op : Operator}
    (h : Operator.build "Transpose" [("perm", .list (perm.map .int))] = .ok op) : op.Predictable := by
  have hmake : (permOf "Transpose" (.list (perm.map .int)) >>= fun p => pure (transpose (some p))) = .ok op := h
  rw [bind_eq_ok_iff] at hmake
  obtain ⟨entries, hentries, hop⟩ := hmake
  cases hop
  have hvalid := permOf_valid hentries
  cases permOf_int hentries
  have hperm := hvalid _ (mapM_position?_whole _)
  rw [List.length_map] at hperm
  exact ⟨perm.map Int.toNat, rfl, hperm⟩

theorem build_convolution_predictable {strideH strideW : Int} {op : Operator}
    (h : Operator.build "Conv2D" [("strides", .list [.int strideH, .int strideW])] = .ok op) :
    op.Predictable := by
  have hmake : (stridesOf "Conv2D" (.list [.int strideH, .int strideW]) >>= fun p =>
      pure (convolution .sequential p.1 p.2)) = .ok op := h
  rw [bind_eq_ok_iff] at hmake
  obtain ⟨⟨a, b⟩, hstrides, hop⟩ := hmake
  cases hop
  obtain ⟨hh, hw, rfl, rfl⟩ := stridesOf_int hstrides
  exact ⟨by omega, by omega⟩

theorem Predictable.isLibrary {op : Operator} (hop : op.Predictable) : op.IsLibrary := by
  cases op with
  | const _ | placeholder _ | custom _ => exact hop.elim
  | identity | relu | add | convolution _ _ _ => trivial
  | transpose perm =>
    cases perm with
    | none => trivial
    | some perm =>
      obtain ⟨axes, rfl, hperm⟩ := hop
      intro axes' h
      cases (mapM_position?_whole axes).symm.trans h
      rwa [List.length_map]

/-- The axes of such a transposition are whole numbers at every rank. -/
theorem Predictable.exists_axes {perm : Option (List AxisEntry)} (hop : (transpose perm).Predictable) {rank : Nat}
    {entries : List AxisEntry} (h : permFor perm rank = .ok entries) :
    ∃ axes, entries.mapM AxisEntry.axis? = some axes := by
  cases perm with
  | none =>
    cases h
    exact ⟨_, mapM_axis?_whole _⟩
  | some perm =>
    obtain ⟨axes, rfl, -⟩ := hop
    simp only [permFor] at h
    split at h
    · cases h
      exact ⟨axes, mapM_axis?_whole axes⟩
    · cases h

/-- A transposition that a known shape admits has the rank of that shape. -/
theorem exists_permFor {perm : Option (List AxisEntry)} {s : List Nat} {y x' y' : ShapeFact}
    (h : refineTransposedShapes perm (.ofExtents s) y = .ok (x', y')) :
    ∃ entries, permFor perm s.length = .ok entries := by
  have hrank : transposedRank? perm (.ofExtents s) y = some s.length := by
    simp [transposedRank?, ShapeFact.rank?, ShapeFact.ofExtents, ShapeFact.closed]
  simp only [refineTransposedShapes, hrank, bind_eq_ok_iff] at h
  obtain ⟨entries, hentries, -⟩ := h
  exact ⟨entries, hentries⟩

section

variable {op : Operator} {ts : List Tensor}

theorem exists_of_refine (hop : op.IsLibrary) {fs : List TensorFact} {y : TensorFact} {r : Refinement}
    (h : op.refine fs y = .ok r) : ∃ ins out, r = (ins, some out) := by
  obtain ⟨_, -, -, out, -, hout, -⟩ := refine_mono hop (List.forall₂_same.2 fun f _ => .refl f) (.refl y) h
  exact ⟨r.1, out, Prod.ext rfl hout⟩

theorem hasOneType_of_elem {e : ElemType} (hts : ∀ t ∈ ts, t.elem = e) : op.HasOneType ts := by
  unfold HasOneType
  split
  · exact (hts _ (.head _)).trans (hts _ (.tail _ (.head _))).symm
  · exact (hts _ (.head _)).trans (hts _ (.tail _ (.head _))).symm
  · trivial

/-- **What can be computed is accepted by inference.** If an operator computes
something of tensors of one type, it accepts their types and shapes. -/
theorem refine_of_eval (hop : op.IsLibrary) {e : ElemType} (hts : ∀ t ∈ ts, t.elem = e) {t : Tensor}
    (he : op.eval ts = .ok t) :
    ∃ ins out, op.refine (ts.map TensorFact.typeOf) .unknown = .ok (ins, some out) := by
  obtain ⟨r, hr, -⟩ := refine_ofTensor hop he t.same_refl (hasOneType_of_elem hts)
  have hle : List.Forall₂ TensorFact.Refines (ts.map .ofTensor) (ts.map TensorFact.typeOf) := by
    rw [List.forall₂_map_left_iff, List.forall₂_map_right_iff]
    exact List.forall₂_same.2 fun u _ => TensorFact.ofTensor_refines_typeOf u
  obtain ⟨r', hr', -⟩ := refine_mono hop hle (TensorFact.refines_unknown _) hr
  obtain ⟨ins, out, rfl⟩ := exists_of_refine hop hr'
  exact ⟨ins, out, hr'⟩

variable (hop : op.Predictable)
include hop

/-- **What inference accepts can be computed.** If an operator infers something from
the types and the shapes of tensors, it computes something of them. -/
theorem eval_of_refine {fs ins : List TensorFact} (hfs : List.Forall₂ TensorFact.Types fs ts) {y out : TensorFact}
    (h : op.refine fs y = .ok (ins, some out)) : ∃ t, op.eval ts = .ok t := by
  rcases refine_cases hop.isLibrary h with ⟨u, rfl, -⟩ | ⟨fact, rfl, -⟩ | ⟨fx, _, hkind, rfl, -⟩ |
    ⟨perm, fx, rfl, rfl, hr⟩ | ⟨fx, fk, rfl, rfl, hr⟩ | ⟨sums, strideH, strideW, fx, fk, rfl, rfl, hr⟩
  · exact hop.elim
  · exact hop.elim
  · rcases hfs with _ | @⟨_, x, _, _, hx, _ | _⟩
    rcases hkind with ⟨rfl, -⟩ | ⟨rfl, -⟩
    · exact ⟨x, rfl⟩
    · exact ⟨x.clamp, rfl⟩
  · rcases hfs with _ | @⟨_, x, _, _, hx, _ | _⟩
    obtain ⟨_, -, hshapes, -, -⟩ := refineTranspose_eq_ok hr
    obtain ⟨entries, hentries⟩ := exists_permFor (hx.shape ▸ hshapes)
    obtain ⟨axes, haxes⟩ := hop.exists_axes hentries
    exact ⟨_, transposeTensor_eq_ok_iff.2 ⟨entries, axes, hentries, haxes, rfl⟩⟩
  · rcases hfs with _ | @⟨_, x, _, _, hx, _ | @⟨_, k, _, _, hk, _ | _⟩⟩
    obtain ⟨_, s, -, -, hs, -, -, -⟩ := refineAdd_eq_ok hr
    rw [hx.shape, hk.shape] at hs
    obtain ⟨t, ht⟩ := add_of_broadcastShapes hs
    exact ⟨t, ofKernel_eq_ok_iff.2 ht⟩
  · rcases hfs with _ | @⟨_, x, _, _, hx, _ | @⟨_, k, _, _, hk, _ | _⟩⟩
    obtain ⟨_, _, _, -, -, hshapes, -, -⟩ := refineConvolution_eq_ok hr
    rw [hx.shape, hk.shape] at hshapes
    exact convolveTensors_of_shapes hop.1 hop.2 hshapes

/-- Without the values of its inputs an operator infers no value of its output. -/
theorem knownOutput_typeOf {t : Tensor} (he : op.eval ts = .ok t) :
    knownOutput op (ts.map TensorFact.typeOf) = .ok none := by
  cases ts with
  | nil =>
    cases op with
    | const _ | placeholder _ | custom _ => exact hop.elim
    | identity | relu | add | transpose _ | convolution _ _ _ => cases he
  | cons u us => rfl

/-- The fact that is inferred of an output is all that is known of it before it is
computed: its type and its shape. -/
theorem refine_typeOf {t : Tensor} (he : op.eval ts = .ok t) {y out : TensorFact} {ins : List TensorFact}
    (h : op.refine (ts.map TensorFact.typeOf) y = .ok (ins, some out)) : out = .typeOf t := by
  obtain ⟨hdtype, hshape⟩ := refine_types hop.isLibrary he (TensorFact.forall₂_types_typeOf ts) h
  have hvalue : out.value = none := by
    rcases refine_knownOutput hop.isLibrary h with ⟨-, hout⟩ | ⟨-, hout⟩
    · exact hout
    · exact (Except.ok.inj ((knownOutput_typeOf hop he).symm.trans hout)).symm
  rcases out with ⟨dtype, shape, value⟩
  cases hdtype
  cases hshape
  cases hvalue
  rfl

/-- **Prediction is exact.** Of tensors of one element type an operator computes
something if and only if it accepts their types and shapes, and what it then infers
of its output is the type and the shape of what it computes. -/
theorem refine_predicts {e : ElemType} (hts : ∀ t ∈ ts, t.elem = e) :
    ((∃ r, op.refine (ts.map TensorFact.typeOf) .unknown = .ok r) ↔ ∃ t, op.eval ts = .ok t) ∧
      ∀ t, op.eval ts = .ok t →
        ∃ ins, op.refine (ts.map TensorFact.typeOf) .unknown = .ok (ins, some (.typeOf t)) := by
  have hpredicts : ∀ t, op.eval ts = .ok t →
      ∃ ins, op.refine (ts.map TensorFact.typeOf) .unknown = .ok (ins, some (.typeOf t)) := by
    intro t he
    obtain ⟨ins, out, hr⟩ := refine_of_eval hop.isLibrary hts he
    exact ⟨ins, refine_typeOf hop he hr ▸ hr⟩
  refine ⟨⟨?_, ?_⟩, hpredicts⟩
  · rintro ⟨r, hr⟩
    obtain ⟨ins, out, rfl⟩ := exists_of_refine hop.isLibrary hr
    exact eval_of_refine hop (TensorFact.forall₂_types_typeOf ts) hr
  · rintro ⟨t, he⟩
    obtain ⟨ins, hr⟩ := hpredicts t he
    exact ⟨_, hr⟩

end

/-- A picture of five rows and four columns. -/
def picture : Tensor := .ofFn (.int .w64) [1, 5, 4, 1] fun i => .int (i.getD 1 0 + i.getD 2 0)

/-- Two features of windows of two rows and three columns. -/
def windowFeatures : Tensor := .ofFn (.int .w64) [2, 3, 1, 2] fun i => .int (i.getD 0 0 - i.getD 3 0)

/-- Windows two rows apart meet the picture in two rows and two columns, as predicted. -/
theorem picture_predicted : ∃ t ins, (convolution .sequential 2 1).eval [picture, windowFeatures] = .ok t ∧
    (convolution .sequential 2 1).refine ([picture, windowFeatures].map TensorFact.typeOf) .unknown =
      .ok (ins, some (.typeOf t)) ∧ t.shape = [1, 2, 2, 2] := by
  have hop : (convolution .sequential 2 1).Predictable := ⟨by decide, by decide⟩
  have hts : ∀ t ∈ [picture, windowFeatures], t.elem = .int .w64 :=
    List.forall_mem_cons.2 ⟨rfl, List.forall_mem_singleton.2 rfl⟩
  obtain ⟨t, ht⟩ : ∃ t, (convolution .sequential 2 1).eval [picture, windowFeatures] = .ok t := ⟨_, rfl⟩
  obtain ⟨ins, hr⟩ := (refine_predicts hop hts).2 t ht
  refine ⟨t, ins, ht, hr, ?_⟩
  cases ht
  rfl

end Operator

end EdgeFacts
