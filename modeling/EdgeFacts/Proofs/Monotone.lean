/-
# Operators refine monotonically

If the facts that an operator is given are refined, what it infers is refined
as well, and where it refused the coarser facts it refuses the finer ones
(`Operator.refine_mono`). Facts need not be coherent for that: a value is only
ever evaluated, and evaluation depends on values alone. So of two inferences the
one from finer facts fails wherever the other does, and else says at least as
much (`Operator.refine_monotone`).

Key definitions: `RefinementRefines`.
Key theorems: `knownOutput_mono`, `broadcastShapes_mono`, `refineTransposedShapes_mono`,
`Operator.refine_mono`, `Operator.refine_monotone`.
-/
import EdgeFacts.Operator.Refine
import EdgeFacts.Proofs.Build
import EdgeFacts.Proofs.Refines

namespace EdgeFacts

open TensorFact (meet_eq_ok)

/-- Whether what an operator infers says at least what another inference says. -/
def RefinementRefines (r s : Refinement) : Prop :=
  List.Forall₂ TensorFact.Refines r.1 s.1 ∧ ∃ f g, r.2 = some f ∧ s.2 = some g ∧ f.Refines g

/-! ### Values -/

theorem mapM_value_of_refines {xs ys : List TensorFact} {vs : List Tensor}
    (h : List.Forall₂ TensorFact.Refines xs ys) (hv : ys.mapM TensorFact.value = some vs) :
    ∃ us, xs.mapM TensorFact.value = some us ∧ SameTensors us vs := by
  rw [mapM_eq_some_iff] at hv
  induction h generalizing vs with
  | nil =>
    cases hv
    exact ⟨[], rfl, .nil⟩
  | cons hxy _ ih =>
    rcases hv with _ | ⟨hv, hvs⟩
    obtain ⟨u, hu, huv⟩ := hxy.value _ hv
    obtain ⟨us, hus, hsame⟩ := ih hvs
    refine ⟨u :: us, ?_, .cons huv hsame⟩
    rw [mapM_eq_some_iff] at hus ⊢
    exact .cons hu hus

/-- A known output stays known under refinement, and where the evaluation of
the coarser facts fails so does that of the finer ones. -/
theorem knownOutput_mono {op : Operator} (hop : op.IsLibrary) {xs ys : List TensorFact}
    {v : Option Tensor} (h : List.Forall₂ TensorFact.Refines xs ys)
    (hv : knownOutput op xs = .ok v) :
    ∃ w, knownOutput op ys = .ok w ∧ ValueRefines v w := by
  unfold knownOutput at hv ⊢
  cases hys : ys.mapM TensorFact.value with
  | none => exact ⟨none, rfl, valueRefines_none _⟩
  | some vs =>
    obtain ⟨us, hus, hsame⟩ := mapM_value_of_refines h hys
    simp only [hus] at hv
    obtain ⟨t, ht, rfl⟩ := map_eq_ok_iff.1 hv
    obtain ⟨u, hu, htu⟩ := Operator.eval_same hop hsame ht
    refine ⟨some u, by simp only [hu]; rfl, fun w hw => ?_⟩
    cases hw
    exact ⟨t, rfl, htu⟩

/-! ### Broadcasting -/

theorem broadcastDim_mono {a b a' b' c' : DimFact} (ha : a'.Refines a) (hb : b'.Refines b)
    (h : broadcastDim a' b' = .ok c') : ∃ c, broadcastDim a b = .ok c ∧ c'.Refines c := by
  rcases ha with rfl | rfl <;> rcases hb with rfl | rfl
  · exact ⟨.any, rfl, DimFact.refines_any _⟩
  · cases b' <;> cases a' <;> grind [broadcastDim, DimFact.Refines]
  · cases a' <;> cases b' <;> grind [broadcastDim, DimFact.Refines]
  · exact ⟨c', h, .refl _⟩

theorem broadcastDims_mono {as bs as' bs' cs' : List DimFact}
    (ha : List.Forall₂ DimFact.Refines as' as) (hb : List.Forall₂ DimFact.Refines bs' bs)
    (h : broadcastDims as' bs' = .ok cs') :
    ∃ cs, broadcastDims as bs = .ok cs ∧ List.Forall₂ DimFact.Refines cs' cs := by
  induction ha generalizing bs bs' cs' with
  | nil =>
    cases h
    exact ⟨bs, rfl, hb⟩
  | @cons a' a as' as hda hdas ih =>
    cases hb with
    | nil =>
      cases h
      exact ⟨a :: as, rfl, .cons hda hdas⟩
    | @cons b' b bs' bs hdb hdbs =>
      simp only [broadcastDims, bind_eq_ok_iff, pure_eq_ok] at h ⊢
      obtain ⟨c', hc', rest', hrest', hcs'⟩ := h
      obtain ⟨c, hc, hcc⟩ := broadcastDim_mono hda hdb hc'
      obtain ⟨rest, hrest, hrr⟩ := ih hdbs hrest'
      cases hcs'
      exact ⟨c :: rest, ⟨c, hc, rest, hrest, rfl⟩, .cons hcc hrr⟩

theorem broadcastShapes_mono {a b a' b' c' : ShapeFact} (ha : a'.Refines a) (hb : b'.Refines b)
    (h : broadcastShapes a' b' = .ok c') : ∃ c, broadcastShapes a b = .ok c ∧ c'.Refines c := by
  unfold broadcastShapes at h ⊢
  by_cases hopen : (a.isOpen || b.isOpen) = true
  · exact ⟨.unknown, if_pos hopen, ShapeFact.refines_unknown _⟩
  · rcases a with ⟨as, p⟩
    rcases b with ⟨bs, q⟩
    obtain ⟨rfl, rfl⟩ : p = false ∧ q = false := by simpa using hopen
    have hda := ShapeFact.Refines.of_closed ha
    have hdb := ShapeFact.Refines.of_closed hb
    simp only [hda.1, hdb.1, Bool.or_self, Bool.false_eq_true, if_false, bind_eq_ok_iff,
      pure_eq_ok] at h ⊢
    obtain ⟨cs', hcs', hc'⟩ := h
    obtain ⟨cs, hcs, hcc⟩ := broadcastDims_mono (List.forall₂_reverse_iff.2 hda.2)
      (List.forall₂_reverse_iff.2 hdb.2) hcs'
    cases hc'
    exact ⟨_, ⟨cs, hcs, rfl⟩,
      ShapeFact.closed_refines_closed_iff.2 (List.forall₂_reverse_iff.2 hcc)⟩

/-! ### Transposition -/

theorem rank?_of_refines {a b : ShapeFact} {r : Nat} (h : a.Refines b) (hr : b.rank? = some r) :
    a.rank? = some r := by
  rcases b with ⟨bs, q⟩
  cases q with
  | true => cases hr
  | false =>
    have ha := ShapeFact.Refines.of_closed h
    cases hr
    simp [ShapeFact.rank?, ha.1, ha.2.length_eq]

/-- A shape that meets a rank and has one has that rank. -/
theorem rank?_of_meet_ofRank {a c : ShapeFact} {r n : Nat} (hr : a.rank? = some r)
    (h : a.meet (.ofRank n) = .ok c) : r = n := by
  obtain ⟨ha, hn⟩ := ShapeFact.isMeet.lower h
  have hca := rank?_of_refines ha hr
  have hcn := rank?_of_refines hn (r := n) (by simp [ShapeFact.rank?, ShapeFact.ofRank, ShapeFact.closed])
  rw [hca] at hcn
  exact Option.some.inj hcn

theorem permFor_length {perm : Option (List AxisEntry)} {rank : Nat} {entries : List AxisEntry}
    (h : permFor perm rank = .ok entries) : entries.length = rank := by
  unfold permFor at h
  split at h
  · cases h
    simp
  · split at h
    · cases h
      assumption
    · cases h

theorem refineTransposedShapes_lower {perm : Option (List AxisEntry)} {x y a b : ShapeFact}
    (h : refineTransposedShapes perm x y = .ok (a, b)) : a.Refines x ∧ b.Refines y := by
  unfold refineTransposedShapes at h
  split at h
  · cases h
    exact ⟨.refl _, .refl _⟩
  · simp only [bind_eq_ok_iff, pure_eq_ok] at h
    obtain ⟨entries, -, x₁, hx₁, y₁, hy₁, axes, -, y₂, hy₂, x₂, hx₂, hab⟩ := h
    cases hab
    exact ⟨(ShapeFact.isMeet.lower hx₂).1.trans (ShapeFact.isMeet.lower hx₁).1,
      (ShapeFact.isMeet.lower hy₂).1.trans (ShapeFact.isMeet.lower hy₁).1⟩

/-- Where a transposition accepts refined shapes, they show no other rank. -/
theorem transposedRank?_of_refines {perm : Option (List AxisEntry)} {x y x' y' a b : ShapeFact}
    {r : Nat} (hx : x'.Refines x) (hy : y'.Refines y) (hr : transposedRank? perm x y = some r)
    (h : refineTransposedShapes perm x' y' = .ok (a, b)) : transposedRank? perm x' y' = some r := by
  cases hxr : x.rank? with
  | some n =>
    have hr' : n = r := by simpa [transposedRank?, hxr] using hr
    simp [transposedRank?, rank?_of_refines hx hxr, hr']
  | none =>
    cases hx' : x'.rank? with
    | none =>
      cases hyr : y.rank? with
      | some n =>
        have hr' : n = r := by simpa [transposedRank?, hxr, hyr] using hr
        simp [transposedRank?, hx', rank?_of_refines hy hyr, hr']
      | none =>
        have hp : perm.map List.length = some r := by simpa [transposedRank?, hxr, hyr] using hr
        cases hy' : y'.rank? with
        | none => simp [transposedRank?, hx', hy', hp]
        | some n =>
          have hrank : transposedRank? perm x' y' = some n := by simp [transposedRank?, hx', hy']
          obtain ⟨entries, rfl, hl⟩ := Option.map_eq_some_iff.1 hp
          simp only [refineTransposedShapes, hrank, bind_eq_ok_iff] at h
          obtain ⟨es, hes, -⟩ := h
          have := permFor_length hes
          simp only [permFor] at hes
          split at hes
          · rw [hrank]; congr 1; omega
          · cases hes
    | some n =>
      have hrank : transposedRank? perm x' y' = some n := by simp [transposedRank?, hx']
      rw [hrank]
      simp only [refineTransposedShapes, hrank, bind_eq_ok_iff] at h
      obtain ⟨es, hes, -, -, y₁, hy₁, -⟩ := h
      cases hyr : y.rank? with
      | some m =>
        have hr' : m = r := by simpa [transposedRank?, hxr, hyr] using hr
        rw [← hr', rank?_of_meet_ofRank (rank?_of_refines hy hyr) hy₁]
      | none =>
        have hp : perm.map List.length = some r := by simpa [transposedRank?, hxr, hyr] using hr
        obtain ⟨entries, rfl, hl⟩ := Option.map_eq_some_iff.1 hp
        simp only [permFor] at hes
        split at hes
        · congr 1; omega
        · cases hes

theorem forall₂_map_getD {as bs : List DimFact} {p : Bool} (h : ShapeFact.DimsRefine p as bs)
    (ks : List Nat) :
    List.Forall₂ DimFact.Refines (ks.map fun k => as.getD k .any) (ks.map fun k => bs.getD k .any) := by
  rw [List.forall₂_map_left_iff, List.forall₂_map_right_iff]
  exact List.forall₂_same.2 fun k _ => h.getD k

theorem refineTransposedShapes_mono {perm : Option (List AxisEntry)} {x y x' y' a' b' : ShapeFact}
    (hx : x'.Refines x) (hy : y'.Refines y)
    (h : refineTransposedShapes perm x' y' = .ok (a', b')) :
    ∃ a b, refineTransposedShapes perm x y = .ok (a, b) ∧ a'.Refines a ∧ b'.Refines b := by
  cases hr : transposedRank? perm x y with
  | none =>
    have hlow := refineTransposedShapes_lower h
    exact ⟨x, y, by simp [refineTransposedShapes, hr], hlow.1.trans hx, hlow.2.trans hy⟩
  | some r =>
    have hr' := transposedRank?_of_refines hx hy hr h
    simp only [refineTransposedShapes, hr, hr', bind_eq_ok_iff, pure_eq_ok] at h ⊢
    obtain ⟨entries, hes, x₁', hx₁', y₁', hy₁', axes, haxes, y₂', hy₂', x₂', hx₂', hab⟩ := h
    cases hab
    obtain ⟨x₁, hx₁, hxx₁⟩ := ShapeFact.isMeet.mono hx (.refl _) hx₁'
    obtain ⟨y₁, hy₁, hyy₁⟩ := ShapeFact.isMeet.mono hy (.refl _) hy₁'
    obtain ⟨y₂, hy₂, hyy₂⟩ := ShapeFact.isMeet.mono hyy₁
      (ShapeFact.closed_refines_closed_iff.2 (forall₂_map_getD hxx₁.dims axes)) hy₂'
    have back := forall₂_map_getD hyy₂.dims ((List.range r).map fun k => axes.idxOf k)
    simp only [List.map_map, Function.comp_def] at back
    obtain ⟨x₂, hx₂, hxx₂⟩ := ShapeFact.isMeet.mono hxx₁
      (ShapeFact.closed_refines_closed_iff.2 back) hx₂'
    exact ⟨x₂, y₂, ⟨entries, hes, x₁, hx₁, y₁, hy₁, axes, haxes, y₂, hy₂, x₂, hx₂, rfl⟩, hxx₂, hyy₂⟩

/-! ### Convolution -/

theorem convolvedDim_mono {d k d' k' c' : DimFact} {stride : Nat} (hd : d'.Refines d)
    (hk : k'.Refines k) (h : convolvedDim d' k' stride = .ok c') :
    ∃ c, convolvedDim d k stride = .ok c ∧ c'.Refines c := by
  rcases hd with rfl | rfl <;> rcases hk with rfl | rfl
  · exact ⟨.any, rfl, DimFact.refines_any _⟩
  · exact ⟨.any, rfl, DimFact.refines_any _⟩
  · cases d' with
    | streamed => exact ⟨.streamed, rfl, by cases h; exact .refl _⟩
    | _ => exact ⟨.any, rfl, DimFact.refines_any _⟩
  · exact ⟨c', h, .refl _⟩

/-- What it means that a shape has four dimensions. -/
theorem fourDims_eq_ok {s : ShapeFact} {a b c d : DimFact} :
    fourDims s = .ok (a, b, c, d) ↔ s.meet (.ofRank 4) = .ok (.closed [a, b, c, d]) := by
  unfold fourDims
  simp only [bind_eq_ok_iff]
  constructor
  · rintro ⟨t, ht, h⟩
    have hclosed := (ShapeFact.isMeet.lower ht).2.closed rfl
    split at h
    · rename_i hdims
      cases h
      rcases t with ⟨dims, isOpen⟩
      simp only at hclosed hdims
      rw [ht, hdims, hclosed]
      rfl
    · cases h
  · intro h
    exact ⟨_, h, rfl⟩

theorem fourDims_mono {s s' : ShapeFact} {q' : DimFact × DimFact × DimFact × DimFact}
    (hs : s'.Refines s) (h : fourDims s' = .ok q') :
    ∃ q, fourDims s = .ok q ∧ q'.1.Refines q.1 ∧ q'.2.1.Refines q.2.1 ∧
      q'.2.2.1.Refines q.2.2.1 ∧ q'.2.2.2.Refines q.2.2.2 := by
  obtain ⟨a', b', c', d'⟩ := q'
  obtain ⟨t, ht, htt⟩ := ShapeFact.isMeet.mono hs (.refl _) (fourDims_eq_ok.1 h)
  have hclosed := (ShapeFact.isMeet.lower ht).2.closed rfl
  rcases t with ⟨dims, isOpen⟩
  simp only at hclosed
  subst hclosed
  rcases (ShapeFact.Refines.of_closed htt).2 with _ | ⟨ha, _ | ⟨hb, _ | ⟨hc, _ | ⟨hd, _ | _⟩⟩⟩⟩
  exact ⟨_, fourDims_eq_ok.2 ht, ha, hb, hc, hd⟩

/-! ### Operators -/

theorem ofShape_refines {d e : Option DType} {s t : ShapeFact} (hd : DTypeRefines d e)
    (hs : s.Refines t) : (TensorFact.ofShape d s).Refines (.ofShape e t) :=
  ⟨hd, hs, valueRefines_none _⟩

theorem refineElementwise_mono {op : Operator} (hop : op.IsLibrary) {invertible : Bool}
    {x y x' y' : TensorFact} {r' : Refinement} (hx : x'.Refines x) (hy : y'.Refines y)
    (h : refineElementwise op invertible x' y' = .ok r') :
    ∃ r, refineElementwise op invertible x y = .ok r ∧ RefinementRefines r' r := by
  simp only [refineElementwise, bind_eq_ok_iff, pure_eq_ok] at h ⊢
  obtain ⟨m', hm', v', hv', hr'⟩ := h
  obtain ⟨m, hm, hmm⟩ := TensorFact.isMeet.mono hx.withoutValue hy.withoutValue hm'
  obtain ⟨v, hv, hvv⟩ := knownOutput_mono hop (.cons hx .nil) hv'
  cases hr'
  refine ⟨_, ⟨m, hm, v, hv, rfl⟩, .cons ⟨hmm.dtype, hmm.shape, ?_⟩ .nil, _, _, rfl, rfl,
    hmm.dtype, hmm.shape, hvv⟩
  cases invertible with
  | true => exact hy.value
  | false => exact valueRefines_none _

theorem refineAdd_mono {a b y a' b' y' : TensorFact} {r' : Refinement} (ha : a'.Refines a)
    (hb : b'.Refines b) (hy : y'.Refines y) (h : refineAdd a' b' y' = .ok r') :
    ∃ r, refineAdd a b y = .ok r ∧ RefinementRefines r' r := by
  simp only [refineAdd, bind_eq_ok_iff, pure_eq_ok] at h ⊢
  obtain ⟨d₁', hd₁', d', hd', s₁', hs₁', s', hs', v', hv', hr'⟩ := h
  obtain ⟨d₁, hd₁, hdd₁⟩ := isMeet_dtype.mono ha.dtype hb.dtype hd₁'
  obtain ⟨d, hd, hdd⟩ := isMeet_dtype.mono hdd₁ hy.dtype hd'
  obtain ⟨s₁, hs₁, hss₁⟩ := broadcastShapes_mono ha.shape hb.shape hs₁'
  obtain ⟨s, hs, hss⟩ := ShapeFact.isMeet.mono hss₁ hy.shape hs'
  obtain ⟨v, hv, hvv⟩ := knownOutput_mono (show Operator.add.IsLibrary from trivial) (.cons ha (.cons hb .nil)) hv'
  cases hr'
  have operand := ofShape_refines hdd (.refl .unknown)
  exact ⟨_, ⟨d₁, hd₁, d, hd, s₁, hs₁, s, hs, v, hv, rfl⟩, .cons operand (.cons operand .nil),
    _, _, rfl, rfl, hdd, hss, hvv⟩

theorem refineTranspose_mono {perm : Option (List AxisEntry)}
    (hop : (Operator.transpose perm).IsLibrary) {x y x' y' : TensorFact} {r' : Refinement}
    (hx : x'.Refines x) (hy : y'.Refines y) (h : refineTranspose perm x' y' = .ok r') :
    ∃ r, refineTranspose perm x y = .ok r ∧ RefinementRefines r' r := by
  simp only [refineTranspose, bind_eq_ok_iff, pure_eq_ok] at h ⊢
  obtain ⟨d', hd', ⟨s', t'⟩, hst', v', hv', hr'⟩ := h
  obtain ⟨d, hd, hdd⟩ := isMeet_dtype.mono hx.dtype hy.dtype hd'
  obtain ⟨s, t, hst, hss, htt⟩ := refineTransposedShapes_mono hx.shape hy.shape hst'
  obtain ⟨v, hv, hvv⟩ := knownOutput_mono hop (.cons hx .nil) hv'
  cases hr'
  exact ⟨_, ⟨d, hd, (s, t), hst, v, hv, rfl⟩, .cons (ofShape_refines hdd hss) .nil,
    _, _, rfl, rfl, hdd, htt, hvv⟩

theorem refineConvolution_mono {sums : Contraction} {strideH strideW : Nat} {x k y x' k' y' : TensorFact}
    {r' : Refinement} (hx : x'.Refines x) (hk : k'.Refines k) (hy : y'.Refines y)
    (h : refineConvolution sums strideH strideW x' k' y' = .ok r') :
    ∃ r, refineConvolution sums strideH strideW x k y = .ok r ∧ RefinementRefines r' r := by
  simp only [refineConvolution, bind_eq_ok_iff, pure_eq_ok] at h ⊢
  obtain ⟨d₁', hd₁', d', hd', qx', hqx', qk', hqk', qy', hqy', n', hn', c', hc', o', ho',
    h₁', hh₁', h', hh', w₁', hw₁', w', hw', v', hv', hr'⟩ := h
  obtain ⟨d₁, hd₁, hdd₁⟩ := isMeet_dtype.mono hx.dtype hk.dtype hd₁'
  obtain ⟨d, hd, hdd⟩ := isMeet_dtype.mono hdd₁ hy.dtype hd'
  obtain ⟨qx, hqx, xn, xh, xw, xc⟩ := fourDims_mono hx.shape hqx'
  obtain ⟨qk, hqk, kh, kw, kc, ko⟩ := fourDims_mono hk.shape hqk'
  obtain ⟨qy, hqy, yn, yh, yw, yo⟩ := fourDims_mono hy.shape hqy'
  obtain ⟨n, hn, hnn⟩ := DimFact.isMeet.mono xn yn hn'
  obtain ⟨c, hc, hcc⟩ := DimFact.isMeet.mono xc kc hc'
  obtain ⟨o, ho, hoo⟩ := DimFact.isMeet.mono ko yo ho'
  obtain ⟨h₁, hh₁, hhh₁⟩ := convolvedDim_mono xh kh hh₁'
  obtain ⟨h, hh, hhh⟩ := DimFact.isMeet.mono hhh₁ yh hh'
  obtain ⟨w₁, hw₁, hww₁⟩ := convolvedDim_mono xw kw hw₁'
  obtain ⟨w, hw, hww⟩ := DimFact.isMeet.mono hww₁ yw hw'
  obtain ⟨v, hv, hvv⟩ := knownOutput_mono
    (show (Operator.convolution sums strideH strideW).IsLibrary from trivial) (.cons hx (.cons hk .nil)) hv'
  cases hr'
  have data := ofShape_refines hdd (ShapeFact.closed_refines_closed_iff.2
    (.cons hnn (.cons xh (.cons xw (.cons hcc .nil)))))
  have filter := ofShape_refines hdd (ShapeFact.closed_refines_closed_iff.2
    (.cons kh (.cons kw (.cons hcc (.cons hoo .nil)))))
  have output := ShapeFact.closed_refines_closed_iff.2
    (.cons hnn (.cons hhh (.cons hww (.cons hoo .nil))))
  exact ⟨_, ⟨d₁, hd₁, d, hd, qx, hqx, qk, hqk, qy, hqy, n, hn, c, hc, o, ho, h₁, hh₁, h, hh,
    w₁, hw₁, w, hw, v, hv, rfl⟩, .cons data (.cons filter .nil), _, _, rfl, rfl, hdd, output, hvv⟩

/-- **Refinement is monotone.** An operator of the library that accepts refined
facts accepts the facts they refine, and infers no more from these. -/
theorem Operator.refine_mono {op : Operator} (hop : op.IsLibrary) {xs xs' : List TensorFact}
    {y y' : TensorFact} {r' : Refinement} (hx : List.Forall₂ TensorFact.Refines xs' xs)
    (hy : y'.Refines y) (h : op.refine xs' y' = .ok r') :
    ∃ r, op.refine xs y = .ok r ∧ RefinementRefines r' r := by
  cases op with
  | custom c => exact hop.elim
  | const value =>
    cases hx with
    | nil =>
      cases h
      exact ⟨_, rfl, .nil, _, _, rfl, rfl, .refl _⟩
    | cons _ _ => cases h
  | placeholder fact =>
    cases hx with
    | nil =>
      cases h
      exact ⟨_, rfl, .nil, _, _, rfl, rfl, .refl _⟩
    | cons _ _ => cases h
  | identity =>
    rcases hx with _ | ⟨hx, _ | ⟨_, _⟩⟩
    · cases h
    · exact refineElementwise_mono (show Operator.identity.IsLibrary from trivial) hx hy h
    · cases h
  | relu =>
    rcases hx with _ | ⟨hx, _ | ⟨_, _⟩⟩
    · cases h
    · exact refineElementwise_mono (show Operator.relu.IsLibrary from trivial) hx hy h
    · cases h
  | transpose perm =>
    rcases hx with _ | ⟨hx, _ | ⟨_, _⟩⟩
    · cases h
    · exact refineTranspose_mono hop hx hy h
    · cases h
  | add =>
    rcases hx with _ | ⟨ha, _ | ⟨hb, _ | ⟨_, _⟩⟩⟩
    · cases h
    · cases h
    · exact refineAdd_mono ha hb hy h
    · cases h
  | convolution sums strideH strideW =>
    rcases hx with _ | ⟨ha, _ | ⟨hb, _ | ⟨_, _⟩⟩⟩
    · cases h
    · cases h
    · exact refineConvolution_mono ha hb hy h
    · cases h

/-- **What operators infer is monotone in what they are given.** Let each fact that an
operator of the library is given be replaced by one that refines it, coherent or
not. If it refused the facts before, it refuses them still; and if it accepts
both, what it infers then refines what it inferred before, about each input and
about the output. -/
theorem Operator.refine_monotone {op : Operator} (hop : op.IsLibrary) {xs xs' : List TensorFact}
    {y y' : TensorFact} (hx : List.Forall₂ TensorFact.Refines xs' xs) (hy : y'.Refines y) :
    ((∃ e, op.refine xs y = .error e) → ∃ e, op.refine xs' y' = .error e) ∧
      ∀ r r', op.refine xs y = .ok r → op.refine xs' y' = .ok r' → RefinementRefines r' r := by
  refine ⟨fun ⟨e, he⟩ => ?_, fun r r' hr hr' => ?_⟩
  · cases h' : op.refine xs' y' with
    | error e' => exact ⟨e', rfl⟩
    | ok r' =>
      obtain ⟨r, hr, -⟩ := op.refine_mono hop hx hy h'
      cases he.symm.trans hr
  · obtain ⟨s, hs, hrs⟩ := op.refine_mono hop hx hy hr'
    cases hr.symm.trans hs
    exact hrs

/-- A reversal of axes that learns the rank of its input infers more. If its input and
its output differ in rank it fails, and so it does if all their dimensions are known. -/
theorem Operator.reversal_monotone : ∃ op r r', Operator.build "Transpose" [] = .ok op ∧
    op.refine [.unknown] .unknown = .ok r ∧
    op.refine [.ofShape none (.closed [.known 2, .streamed])] .unknown = .ok r' ∧ RefinementRefines r' r ∧
    (∃ e, op.refine [.ofShape none (.closed [.any, .any])] (.ofShape none (.closed [.any])) = .error e) ∧
    ∃ e, op.refine [.ofShape none (.closed [.known 2, .known 0])] (.ofShape none (.closed [.known 1])) =
      .error e := by
  obtain ⟨op, r, r', hop, hr, hr', hfails⟩ : ∃ op r r', Operator.build "Transpose" [] = .ok op ∧
      op.refine [.unknown] .unknown = .ok r ∧
      op.refine [.ofShape none (.closed [.known 2, .streamed])] .unknown = .ok r' ∧
      ∃ e, op.refine [.ofShape none (.closed [.any, .any])] (.ofShape none (.closed [.any])) = .error e :=
    ⟨_, _, _, rfl, rfl, rfl, _, rfl⟩
  have hlib := Operator.build_isLibrary hop
  have hpair : ShapeFact.Refines (.closed [.known 2, .known 0]) (.closed [.any, .any]) :=
    ShapeFact.closed_refines_closed_iff.2 (.cons (.inl rfl) (.cons (.inl rfl) .nil))
  have hlist : ShapeFact.Refines (.closed [.known 1]) (.closed [.any]) :=
    ShapeFact.closed_refines_closed_iff.2 (.cons (.inl rfl) .nil)
  have hnone := dtypeRefines_refl none
  refine ⟨op, r, r', hop, hr, hr', ?_, hfails, ?_⟩
  · exact (op.refine_monotone hlib (.cons (TensorFact.refines_unknown _) .nil) (.refl _)).2 r r' hr hr'
  · exact (op.refine_monotone hlib (.cons (ofShape_refines hnone hpair) .nil) (ofShape_refines hnone hlist)).1 hfails

end EdgeFacts
