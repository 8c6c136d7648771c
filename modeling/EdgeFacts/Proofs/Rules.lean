/-
# The rules by which operators infer

An operator of the library that infers anything does so by one of four rules, or is
a constant or an input of the model (`Operator.refine_cases`). What a rule has
checked and computed when it accepts the facts around a node is read off here once
for each rule; a convolution's shapes are kept apart from its datatype and its
value (`ConvolvedShapes`).

Key definitions: `ConvolvedShapes`.
Key theorems: `refineElementwise_eq_ok`, `refineAdd_eq_ok`, `refineTranspose_eq_ok`,
`refineConvolution_eq_ok`, `Operator.refine_placeholder`, `Operator.refine_cases`.
-/
import EdgeFacts.Operator.Refine
import EdgeFacts.Proofs.Result
import EdgeFacts.Proofs.Value

namespace EdgeFacts

section

variable {x y out : TensorFact} {ins : List TensorFact}

theorem refineElementwise_eq_ok {op : Operator} {invertible : Bool}
    (h : refineElementwise op invertible x y = .ok (ins, some out)) :
    ∃ m, x.withoutValue.meet y.withoutValue = .ok m ∧ knownOutput op [x] = .ok out.value ∧
      out = { m with value := out.value } ∧
      ins = [{ m with value := if invertible then y.value else none }] := by
  simp only [refineElementwise, bind_eq_ok_iff, pure_eq_ok] at h
  obtain ⟨m, hm, value, hv, h⟩ := h
  cases h
  exact ⟨m, hm, hv, rfl, rfl⟩

theorem refineAdd_eq_ok {a b : TensorFact} (h : refineAdd a b y = .ok (ins, some out)) :
    ∃ d s, meetDType a.dtype b.dtype = .ok d ∧ meetDType d y.dtype = .ok out.dtype ∧
      broadcastShapes a.shape b.shape = .ok s ∧ s.meet y.shape = .ok out.shape ∧
      knownOutput .add [a, b] = .ok out.value ∧
      ins = [.ofShape out.dtype .unknown, .ofShape out.dtype .unknown] := by
  simp only [refineAdd, bind_eq_ok_iff, pure_eq_ok] at h
  obtain ⟨d, hd, dtype, hdtype, s, hs, shape, hshape, value, hv, h⟩ := h
  cases h
  exact ⟨d, s, hd, hdtype, hs, hshape, hv, rfl⟩

theorem refineTranspose_eq_ok {perm : Option (List AxisEntry)}
    (h : refineTranspose perm x y = .ok (ins, some out)) :
    ∃ before, meetDType x.dtype y.dtype = .ok out.dtype ∧
      refineTransposedShapes perm x.shape y.shape = .ok (before, out.shape) ∧
      knownOutput (.transpose perm) [x] = .ok out.value ∧ ins = [.ofShape out.dtype before] := by
  simp only [refineTranspose, bind_eq_ok_iff, pure_eq_ok] at h
  obtain ⟨dtype, hdtype, ⟨before, after⟩, hshapes, value, hv, h⟩ := h
  cases h
  exact ⟨before, hdtype, hshapes, hv, rfl⟩

end

/-- Whether the shapes of the data, the filter and the output of a convolution
become some others, each refined by what is known of the others. -/
def ConvolvedShapes (strideH strideW : Nat) (data filter output data' filter' output' : ShapeFact) : Prop :=
  ∃ xn xh xw xc kh kw kc ko yn yh yw yo batch channels features h height w width,
    fourDims data = .ok (xn, xh, xw, xc) ∧ fourDims filter = .ok (kh, kw, kc, ko) ∧
    fourDims output = .ok (yn, yh, yw, yo) ∧
    DimFact.meet xn yn = .ok batch ∧ DimFact.meet xc kc = .ok channels ∧ DimFact.meet ko yo = .ok features ∧
    convolvedDim xh kh strideH = .ok h ∧ DimFact.meet h yh = .ok height ∧
    convolvedDim xw kw strideW = .ok w ∧ DimFact.meet w yw = .ok width ∧
    data' = .closed [batch, xh, xw, channels] ∧ filter' = .closed [kh, kw, channels, features] ∧
    output' = .closed [batch, height, width, features]

theorem refineConvolution_eq_ok {sums : Contraction} {strideH strideW : Nat} {x k y out : TensorFact}
    {ins : List TensorFact} (h : refineConvolution sums strideH strideW x k y = .ok (ins, some out)) :
    ∃ d sx sk, meetDType x.dtype k.dtype = .ok d ∧ meetDType d y.dtype = .ok out.dtype ∧
      ConvolvedShapes strideH strideW x.shape k.shape y.shape sx sk out.shape ∧
      knownOutput (.convolution sums strideH strideW) [x, k] = .ok out.value ∧
      ins = [.ofShape out.dtype sx, .ofShape out.dtype sk] := by
  simp only [refineConvolution, bind_eq_ok_iff, pure_eq_ok] at h
  obtain ⟨d, hd, dtype, hdtype, ⟨xn, xh, xw, xc⟩, hx, ⟨kh, kw, kc, ko⟩, hk, ⟨yn, yh, yw, yo⟩, hy, batch, hbatch,
    channels, hchannels, features, hfeatures, hd₁, hh, height, hheight, wd, hw, width, hwidth, value, hv, h⟩ := h
  cases h
  exact ⟨d, _, _, hd, hdtype, ⟨xn, xh, xw, xc, kh, kw, kc, ko, yn, yh, yw, yo, batch, channels, features, hd₁,
    height, wd, width, hx, hk, hy, hbatch, hchannels, hfeatures, hh, hheight, hw, hwidth, rfl, rfl, rfl⟩, hv, rfl⟩

namespace Operator

/-- An input of the model infers what was declared for it, and has no inputs itself. -/
theorem refine_placeholder {fact : TensorFact} {fs ins : List TensorFact} {y out : TensorFact}
    (h : (placeholder fact).refine fs y = .ok (ins, some out)) : fs = [] ∧ out = fact := by
  cases fs with
  | nil =>
    cases h
    exact ⟨rfl, rfl⟩
  | cons f fs => cases h

/-- **The ways in which an operator of the library infers**: by its number of inputs
and the rule that goes with its kind. -/
theorem refine_cases {op : Operator} (hop : op.IsLibrary) {fs ins : List TensorFact} {y out : TensorFact}
    (h : op.refine fs y = .ok (ins, some out)) :
    (∃ t, op = const t ∧ fs = [] ∧ ins = [] ∧ out = .ofTensor t) ∨
    (∃ fact, op = placeholder fact ∧ fs = [] ∧ ins = [] ∧ out = fact) ∨
    (∃ x invertible, (op = identity ∧ invertible = true ∨ op = relu ∧ invertible = false) ∧ fs = [x] ∧
      refineElementwise op invertible x y = .ok (ins, some out)) ∨
    (∃ perm x, op = transpose perm ∧ fs = [x] ∧ refineTranspose perm x y = .ok (ins, some out)) ∨
    (∃ a b, op = add ∧ fs = [a, b] ∧ refineAdd a b y = .ok (ins, some out)) ∨
    ∃ sums strideH strideW x k, op = convolution sums strideH strideW ∧ fs = [x, k] ∧
      refineConvolution sums strideH strideW x k y = .ok (ins, some out) := by
  cases op with
  | custom c => exact hop.elim
  | const t =>
    rcases fs with _ | ⟨x, fs⟩
    · cases h
      exact .inl ⟨t, rfl, rfl, rfl, rfl⟩
    · cases h
  | placeholder fact =>
    obtain ⟨rfl, rfl⟩ := refine_placeholder h
    cases h
    exact .inr (.inl ⟨_, rfl, rfl, rfl, rfl⟩)
  | identity =>
    rcases fs with _ | ⟨x, _ | ⟨y, fs⟩⟩
    · cases h
    · exact .inr (.inr (.inl ⟨x, true, .inl ⟨rfl, rfl⟩, rfl, h⟩))
    · cases h
  | relu =>
    rcases fs with _ | ⟨x, _ | ⟨y, fs⟩⟩
    · cases h
    · exact .inr (.inr (.inl ⟨x, false, .inr ⟨rfl, rfl⟩, rfl, h⟩))
    · cases h
  | transpose perm =>
    rcases fs with _ | ⟨x, _ | ⟨y, fs⟩⟩
    · cases h
    · exact .inr (.inr (.inr (.inl ⟨perm, x, rfl, rfl, h⟩)))
    · cases h
  | add =>
    rcases fs with _ | ⟨x, _ | ⟨y, _ | ⟨z, fs⟩⟩⟩
    · cases h
    · cases h
    · exact .inr (.inr (.inr (.inr (.inl ⟨x, y, rfl, rfl, h⟩))))
    · cases h
  | convolution sums strideH strideW =>
    rcases fs with _ | ⟨x, _ | ⟨y, _ | ⟨z, fs⟩⟩⟩
    · cases h
    · cases h
    · exact .inr (.inr (.inr (.inr (.inr ⟨sums, strideH, strideW, x, y, rfl, rfl, h⟩))))
    · cases h

end Operator

end EdgeFacts
