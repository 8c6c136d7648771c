/-
# Which attributes make usable operators

The strides of a convolution and the permutation of a transposition are checked when
they are built into an operator, as the numbers that they are given as. A stride is
cut to a whole number only after it was found to be above zero, so one below 1 becomes
0 and divides by zero; an axis is kept as it was spelled, so one with a point is in
order and yet no position. All other attributes that are accepted make an operator
that is usable (`Operator.Usable`): on facts without values it infers or fails as the
analysis does.

Key definitions: `Failure.IsAnalysis`, `FailsOnly`, `Operator.Usable`, `StridesGiven`,
`Indexes`.
Key theorems: `stridesOf_eq_ok`, `convolution_failsOnly`, `convolution_usable_iff`,
`transpose_failsOnly`, `transpose_usable_iff`, `Operator.build_usable`.
-/
import Mathlib.Data.Rat.Floor
import EdgeFacts.Proofs.Exhaustion

namespace EdgeFacts

/-- Whether a failure is one of the analysis. -/
def Failure.IsAnalysis (e : Failure) : Prop := ∃ cause contexts, e = .analysis cause contexts

/-- Whether some facts say nothing about values. -/
def ValueFree (fs : List TensorFact) : Prop := ∀ f ∈ fs, f.value = none

/-- Whether a result, if it is a failure, is one of some kind. -/
def FailsOnly {α : Type} (P : Failure → Prop) (x : Except Failure α) : Prop := ∀ e, x = .error e → P e

/-- Whether what an operator infers from facts without values fails only in some way. -/
def Operator.FailsOnly (op : Operator) (P : Failure → Prop) : Prop :=
  ∀ (inputs : List TensorFact) (output : TensorFact), ValueFree (output :: inputs) →
    EdgeFacts.FailsOnly P (op.refine inputs output)

/-- Whether an operator infers something from facts without values or fails as the
analysis does. -/
def Operator.Usable (op : Operator) : Prop := op.FailsOnly Failure.IsAnalysis

/-- The numbers that attributes give as strides: 1 and 1, or those of a list of two. -/
def StridesGiven (attrs : Attributes) (h w : Rat) : Prop :=
  Literal.field? attrs "strides" = none ∧ h = 1 ∧ w = 1 ∨
  ∃ x y, Literal.field? attrs "strides" = some (.list [x, y]) ∧
    x.number? = some (.finite h) ∧ y.number? = some (.finite w)

/-- Whether the entries of a permutation are positions, and all of those that there are. -/
def Indexes (entries : List AxisEntry) : Prop :=
  ∃ axes, positions entries = .ok axes ∧ axes.Perm (List.range entries.length)

/-! ### Strides -/

/-- A number above zero that can be cut to a whole one is finite, and is rounded down. -/
theorem wholeStride_eq_ok {x : Literal} {n : FloatDatum} {s : Nat} (hn : x.number? = some n)
    (hpos : (Literal.lessNumber n (.finite 0) || n.isZero) = false) (h : wholeStride x = .ok s) :
    ∃ q : Rat, n = .finite q ∧ 0 < q ∧ s = ⌊q⌋₊ := by
  rw [wholeStride, hn] at h
  cases n with
  | nan => cases h
  | inf _ => cases h
  | negZero => cases hpos
  | finite q =>
    simp only [Literal.lessNumber, FloatDatum.value, FloatDatum.isZero, Bool.or_eq_false_iff,
      decide_eq_false_iff_not] at hpos
    have hq : 0 < q := lt_of_le_of_ne (not_lt.1 hpos.1) (Ne.symm hpos.2)
    cases h
    have hnum : 0 ≤ q.num := Rat.num_nonneg.2 hq.le
    exact ⟨q, rfl, hq, by rw [Int.tdiv_eq_ediv_of_nonneg hnum, ← Rat.floor_def', Int.floor_toNat]⟩

theorem someNotPositive_cons_eq_false {name : String} {x : Literal} {xs : List Literal}
    (h : someNotPositive name (x :: xs) = .ok false) : ∃ n, x.number? = some n ∧
      (Literal.lessNumber n (.finite 0) || n.isZero) = false ∧ someNotPositive name xs = .ok false := by
  rw [someNotPositive] at h
  split at h
  · cases h
  · rename_i n hn
    split at h
    · cases h
    · rename_i hpos
      exact ⟨n, hn, Bool.eq_false_iff.2 hpos, h⟩

/-- Only lists have items that are numbers: those of texts and records are texts. -/
theorem eq_list_of_number? {v x : Literal} {items : List Literal} {n : FloatDatum} (hitems : v.items? = some items)
    (hx : x ∈ items) (hn : x.number? = some n) : v = .list items := by
  have htext {s : String} (h : x = .text s) : False := by
    subst h
    cases hn
  cases v with
  | list xs =>
    cases hitems
    rfl
  | text s =>
    cases hitems
    obtain ⟨c, -, rfl⟩ := List.mem_map.1 hx
    exact (htext rfl).elim
  | record fields =>
    cases hitems
    obtain ⟨f, -, rfl⟩ := List.mem_map.1 hx
    exact (htext rfl).elim
  | _ => cases hitems

theorem stridesOf_eq_ok {name : String} {v : Literal} {a b : Nat} (h : stridesOf name v = .ok (a, b)) :
    ∃ x y, v = .list [x, y] ∧ ∃ p q : Rat, x.number? = some (.finite p) ∧ y.number? = some (.finite q) ∧
      0 < p ∧ 0 < q ∧ a = ⌊p⌋₊ ∧ b = ⌊q⌋₊ := by
  unfold stridesOf at h
  split at h
  · cases h
  · rename_i items hitems
    split at h
    · rename_i x y
      rw [bind_eq_ok_iff] at h
      obtain ⟨refused, hpositive, h⟩ := h
      cases refused with
      | true => cases h
      | false =>
        obtain ⟨m, hm, hmpos, hrest⟩ := someNotPositive_cons_eq_false hpositive
        obtain ⟨n, hn, hnpos, -⟩ := someNotPositive_cons_eq_false hrest
        simp only [Bool.false_eq_true, if_false, bind_eq_ok_iff, pure_eq_ok] at h
        obtain ⟨s, hs, t, ht, h⟩ := h
        cases h
        obtain ⟨p, rfl, hp, rfl⟩ := wholeStride_eq_ok hm hmpos hs
        obtain ⟨q, rfl, hq, rfl⟩ := wholeStride_eq_ok hn hnpos ht
        exact ⟨x, y, eq_list_of_number? hitems (.head _) hm, p, q, hm, hn, hp, hq, rfl, rfl⟩
    · cases h

/-! ### Failures -/

theorem Failure.isAnalysis_because (cause : Cause) : (Failure.because cause).IsAnalysis := ⟨cause, [], rfl⟩

theorem Failure.IsClash.isAnalysis {e : Failure} (h : e.IsClash) : e.IsAnalysis := by
  obtain ⟨c, contexts, rfl⟩ := h
  exact ⟨_, _, rfl⟩

namespace FailsOnly

variable {α β : Type} {P : Failure → Prop}

theorem ok (a : α) : FailsOnly P (.ok a) := fun _ h => nomatch h

theorem bind {x : Except Failure α} {f : α → Except Failure β} (hx : FailsOnly P x)
    (hf : ∀ a, x = .ok a → FailsOnly P (f a)) : FailsOnly P (x >>= f) := by
  intro e h
  rcases bind_eq_error_iff.1 h with h | ⟨a, ha, h⟩
  · exact hx e h
  · exact hf a ha e h

theorem of_clash {x : Except Failure α} {Q : Failure → Prop} (h : ∀ {e}, x = .error e → e.IsClash) :
    FailsOnly (fun e => e.IsAnalysis ∨ Q e) x :=
  fun _ he => .inl (h he).isAnalysis

theorem because {cause : Cause} {Q : Failure → Prop} :
    FailsOnly (fun e => e.IsAnalysis ∨ Q e) (.error (.because cause) : Except Failure α) := by
  intro e h
  cases h
  exact .inl (Failure.isAnalysis_because cause)

end FailsOnly

theorem Operator.FailsOnly.mono {op : Operator} {P Q : Failure → Prop} (h : op.FailsOnly P)
    (hPQ : ∀ e, P e → Q e) : op.FailsOnly Q :=
  fun inputs output hvalue e he => hPQ e (h inputs output hvalue e he)

/-- Of facts without values no output is known. -/
theorem knownOutput_of_valueFree {op : Operator} {f : TensorFact} {fs : List TensorFact}
    (h : ValueFree (f :: fs)) : knownOutput op (f :: fs) = .ok none := by
  simp [knownOutput, List.mapM_cons, h f (.head _)]

/-! ### Convolutions -/

theorem DimFact.meet_error {a b : DimFact} {e : Failure} (h : a.meet b = .error e) : e.IsClash := by
  unfold meet orFail at h
  split at h
  · cases h
  · cases h
    exact ⟨_, [], rfl⟩

theorem fourDims_error {s : ShapeFact} {e : Failure} (h : fourDims s = .error e) : e.IsClash := by
  simp only [fourDims, bind_eq_error_iff] at h
  rcases h with h | ⟨t, ht, h⟩
  · exact ShapeFact.meet_error h
  · -- what meets a rank of 4 has four dimensions
    have hlen := (ShapeFact.isMeet.lower ht).2.of_closed.2.length_eq
    split at h
    · cases h
    · rename_i hdims
      obtain ⟨a, b, c, d, hfour⟩ := List.length_eq_four.1 hlen
      exact absurd hfour (hdims a b c d)

/-- What a convolution fails with: a failure of the analysis, or a division by a stride
of zero. -/
def Failure.OfStrides (h w : Nat) (e : Failure) : Prop :=
  e.IsAnalysis ∨ (h = 0 ∨ w = 0) ∧ e = .primitive .zeroDivisor

theorem convolvedDim_failsOnly {d k : DimFact} {h w stride : Nat} (hs : stride = 0 → h = 0 ∨ w = 0) :
    FailsOnly (Failure.OfStrides h w) (convolvedDim d k stride) := by
  unfold convolvedDim
  split
  · exact .ok _
  · split
    · exact .because
    · split
      · rename_i hzero
        intro e he
        cases he
        exact .inr ⟨hs hzero, rfl⟩
      · exact .ok _
  · exact .ok _

theorem convolution_failsOnly (sums : Contraction) (h w : Nat) :
    (Operator.convolution sums h w).FailsOnly (Failure.OfStrides h w) := by
  intro inputs output hvalue
  have harity (count : Nat) : FailsOnly (Failure.OfStrides h w)
      (.error (.because (.arity (Operator.convolution sums h w).label 2 count)) : Except Failure Refinement) := .because
  match inputs, hvalue with
  | [], _ => exact harity 0
  | [_], _ => exact harity 1
  | _ :: _ :: _ :: _, _ => exact harity _
  | [data, filter], hvalue =>
    have hknown : knownOutput (.convolution sums h w) [data, filter] = .ok none :=
      knownOutput_of_valueFree fun f hf => hvalue f (.tail _ hf)
    have hdims (s : ShapeFact) : FailsOnly (Failure.OfStrides h w) (fourDims s) := .of_clash fourDims_error
    have hmeet (a b : DimFact) : FailsOnly (Failure.OfStrides h w) (a.meet b) := .of_clash DimFact.meet_error
    have hdtype (a b : Option DType) : FailsOnly (Failure.OfStrides h w) (meetDType a b) := .of_clash meetDType_error
    have hheight (d k : DimFact) : FailsOnly (Failure.OfStrides h w) (convolvedDim d k h) :=
      convolvedDim_failsOnly .inl
    have hwidth (d k : DimFact) : FailsOnly (Failure.OfStrides h w) (convolvedDim d k w) :=
      convolvedDim_failsOnly .inr
    -- the steps in their order, each of which fails in no other way
    refine (hdtype _ _).bind fun _ _ => (hdtype _ _).bind fun _ _ => (hdims _).bind fun _ _ => (hdims _).bind fun _ _ =>
      (hdims _).bind fun _ _ => (hmeet _ _).bind fun _ _ => (hmeet _ _).bind fun _ _ => (hmeet _ _).bind fun _ _ =>
      (hheight _ _).bind fun _ _ => (hmeet _ _).bind fun _ _ => (hwidth _ _).bind fun _ _ =>
      (hmeet _ _).bind fun _ _ => ?_
    rw [hknown]
    exact .ok _

/-- Data and a filter with one extent along each axis. -/
def onePixel : TensorFact := .ofShape none (.closed [.known 1, .known 1, .known 1, .known 1])

theorem refine_zeroDivisor {sums : Contraction} {h w : Nat} (hzero : h = 0 ∨ w = 0) :
    (Operator.convolution sums h w).refine [onePixel, onePixel] .unknown = .error (.primitive .zeroDivisor) := by
  rcases hzero with rfl | rfl
  · rfl
  · cases h with
    | zero => rfl
    | succ h => rfl

/-- **A convolution is usable exactly if its strides are at least 1.** -/
theorem convolution_usable_iff {sums : Contraction} {h w : Nat} :
    (Operator.convolution sums h w).Usable ↔ 1 ≤ h ∧ 1 ≤ w := by
  constructor
  · intro husable
    by_contra hnot
    have hfree : ValueFree [.unknown, onePixel, onePixel] := by
      simp [ValueFree, TensorFact.unknown, onePixel, TensorFact.ofShape]
    obtain ⟨cause, contexts, he⟩ := husable _ _ hfree _ (refine_zeroDivisor (h := h) (w := w) (by omega))
    cases he
  · rintro ⟨hh, hw⟩
    refine (convolution_failsOnly sums h w).mono fun e he => he.resolve_right ?_
    rintro ⟨hzero, -⟩
    omega

/-! ### Transpositions -/

theorem exists_positions_iff {entries : List AxisEntry} :
    (∃ axes, positions entries = .ok axes) ↔ ∀ x, .fraction x ∉ entries := by
  constructor
  · rintro ⟨axes, h⟩ x hx
    unfold positions at h
    split at h
    · rename_i axes hmap
      obtain ⟨p, -, hp⟩ := exists_of_forall₂ (mapM_eq_some_iff.1 hmap).flip _ hx
      cases hp
    · cases h
  · intro h
    have hall : ∀ a ∈ entries, ∃ p, a.position? = some p := by
      intro a ha
      cases a with
      | whole n => exact ⟨n, rfl⟩
      | truth b => exact ⟨_, rfl⟩
      | fraction x => exact absurd ha (h x)
    obtain ⟨axes, haxes⟩ := exists_forall₂_of_forall hall
    exact ⟨axes, by simp only [positions, mapM_eq_some_iff.2 haxes]⟩

theorem positions_error {entries : List AxisEntry} {e : Failure} (h : positions entries = .error e) :
    e = .primitive .wrongKind ∧ ∃ x, .fraction x ∈ entries := by
  refine ⟨?_, ?_⟩
  · unfold positions at h
    split at h
    · cases h
    · cases h
      rfl
  · by_contra hnone
    obtain ⟨axes, haxes⟩ := exists_positions_iff.2 (not_exists.1 hnone)
    cases h.symm.trans haxes

/-- What a permutation indexes is told by how its entries are spelled. -/
theorem indexes_iff {entries : List AxisEntry} (hvalid : Operator.ValidPerm entries) :
    Indexes entries ↔ ∀ x, .fraction x ∉ entries := by
  rw [← exists_positions_iff]
  refine ⟨fun ⟨axes, h, _⟩ => ⟨axes, h⟩, fun ⟨axes, h⟩ => ⟨axes, h, hvalid axes ?_⟩⟩
  unfold positions at h
  split at h
  · rename_i hmap
    cases h
    exact hmap
  · cases h

theorem eq_of_permFor {perm : Option (List AxisEntry)} {rank : Nat} {entries : List AxisEntry} {x : FloatDatum}
    (h : permFor perm rank = .ok entries) (hx : .fraction x ∈ entries) : perm = some entries := by
  unfold permFor at h
  split at h
  · cases h
    obtain ⟨n, -, hn⟩ := List.mem_map.1 hx
    cases hn
  · split at h
    · cases h
      rfl
    · cases h

/-- What a transposition fails with: a failure of the analysis, or an axis that is
spelled with a point. -/
def Failure.OfPerm (perm : Option (List AxisEntry)) (e : Failure) : Prop :=
  e.IsAnalysis ∨ (∃ entries x, perm = some entries ∧ .fraction x ∈ entries) ∧ e = .primitive .wrongKind

theorem transpose_failsOnly (perm : Option (List AxisEntry)) :
    (Operator.transpose perm).FailsOnly (Failure.OfPerm perm) := by
  intro inputs output hvalue
  have harity (count : Nat) : FailsOnly (Failure.OfPerm perm)
      (.error (.because (.arity (Operator.transpose perm).label 1 count)) : Except Failure Refinement) := .because
  match inputs, hvalue with
  | [], _ => exact harity 0
  | _ :: _ :: _, _ => exact harity _
  | [x], hvalue =>
    have hknown : knownOutput (.transpose perm) [x] = .ok none :=
      knownOutput_of_valueFree fun f hf => hvalue f (.tail _ hf)
    have hmeet (a b : ShapeFact) : FailsOnly (Failure.OfPerm perm) (a.meet b) := .of_clash ShapeFact.meet_error
    have hdtype : FailsOnly (Failure.OfPerm perm) (meetDType x.dtype output.dtype) := .of_clash meetDType_error
    have hshapes : FailsOnly (Failure.OfPerm perm) (refineTransposedShapes perm x.shape output.shape) := by
      unfold refineTransposedShapes
      split
      · exact .ok _
      · rename_i rank _
        have hfor : FailsOnly (Failure.OfPerm perm) (permFor perm rank) := by
          unfold permFor
          split
          · exact .ok _
          · split
            · exact .ok _
            · exact .because
        refine hfor.bind fun entries hentries => (hmeet _ _).bind fun _ _ => (hmeet _ _).bind fun _ _ =>
          FailsOnly.bind (fun e he => ?_) fun _ _ => (hmeet _ _).bind fun _ _ => (hmeet _ _).bind fun _ _ => .ok _
        obtain ⟨rfl, y, hy⟩ := positions_error he
        exact .inr ⟨⟨entries, y, eq_of_permFor hentries hy, hy⟩, rfl⟩
    refine hdtype.bind fun _ _ => hshapes.bind fun _ _ => ?_
    rw [hknown]
    exact .ok _

theorem refine_wrongKind {entries : List AxisEntry} {x : FloatDatum} (hx : .fraction x ∈ entries) :
    (Operator.transpose (some entries)).refine [.unknown] .unknown = .error (.primitive .wrongKind) := by
  obtain ⟨t, ht, -⟩ := ShapeFact.isMeet.greatest (ShapeFact.refines_unknown (.ofRank entries.length)) (.refl _)
  have hpositions : positions entries = .error (.primitive .wrongKind) := by
    cases h : positions entries with
    | ok axes => exact absurd hx (exists_positions_iff.1 ⟨axes, h⟩ x)
    | error e => rw [(positions_error h).1]
  have hshapes : refineTransposedShapes (some entries) .unknown .unknown = .error (.primitive .wrongKind) := by
    have hfor : permFor (some entries) entries.length = .ok entries := if_pos rfl
    have hrank : transposedRank? (some entries) .unknown .unknown = some entries.length := rfl
    simp only [refineTransposedShapes, hrank, hfor, ht, hpositions, ok_bind]
    rfl
  have hshape : TensorFact.unknown.shape = .unknown := rfl
  simp only [Operator.refine, refineTranspose, hshape, hshapes]
  rfl

/-- **A transposition is usable exactly if no axis is spelled with a point.** -/
theorem transpose_usable_iff {perm : Option (List AxisEntry)} :
    (Operator.transpose perm).Usable ↔ ∀ entries, perm = some entries → ∀ x, .fraction x ∉ entries := by
  constructor
  · rintro husable entries rfl x hx
    have hfree : ValueFree [.unknown, .unknown] := by simp [ValueFree, TensorFact.unknown]
    obtain ⟨cause, contexts, he⟩ := husable _ _ hfree _ (refine_wrongKind hx)
    cases he
  · intro h
    refine (transpose_failsOnly perm).mono fun e he => he.resolve_right ?_
    rintro ⟨⟨entries, x, hperm, hx⟩, -⟩
    exact h entries hperm x hx

/-! ### What is built -/

theorem build_convolution {attrs : Attributes} {op : Operator} (h : Operator.build "Conv2D" attrs = .ok op) :
    ∃ p q : Rat, StridesGiven attrs p q ∧ 0 < p ∧ 0 < q ∧ op = .convolution .sequential ⌊p⌋₊ ⌊q⌋₊ := by
  have hmake : makeConvolution "Conv2D" attrs = .ok op := h
  simp only [makeConvolution, bind_eq_ok_iff] at hmake
  obtain ⟨-, -, hmake⟩ := hmake
  split at hmake
  · rename_i hnone
    cases hmake
    exact ⟨1, 1, .inl ⟨hnone, rfl, rfl⟩, one_pos, one_pos, by rw [Nat.floor_one]⟩
  · rename_i v hv
    simp only [bind_eq_ok_iff, pure_eq_ok] at hmake
    obtain ⟨⟨a, b⟩, hstrides, hmake⟩ := hmake
    cases hmake
    obtain ⟨x, y, rfl, p, q, hx, hy, hp, hq, rfl, rfl⟩ := stridesOf_eq_ok hstrides
    exact ⟨p, q, .inr ⟨x, y, hv, hx, hy⟩, hp, hq, rfl⟩

theorem build_transpose {attrs : Attributes} {op : Operator} (h : Operator.build "Transpose" attrs = .ok op) :
    attrs.get "perm" = .none ∧ op = .transpose none ∨
    ∃ items entries, (attrs.get "perm").items? = some items ∧ items.mapM AxisEntry.ofLiteral? = some entries ∧
      op = .transpose (some entries) ∧ Operator.ValidPerm entries := by
  have hmake : makeTranspose "Transpose" attrs = .ok op := h
  simp only [makeTranspose, bind_eq_ok_iff] at hmake
  obtain ⟨-, -, hmake⟩ := hmake
  split at hmake
  · rename_i hnone
    cases hmake
    exact .inl ⟨hnone, rfl⟩
  · simp only [bind_eq_ok_iff, pure_eq_ok] at hmake
    obtain ⟨entries, hperm, hmake⟩ := hmake
    cases hmake
    obtain ⟨items, -, hitems, -, -, hentries⟩ := permOf_eq_ok hperm
    exact .inr ⟨items, entries, hitems, hentries, rfl, permOf_valid hperm⟩

/-- An axis is spelled with a point if it is given so. -/
theorem forall_fraction_iff {items : List Literal} {entries : List AxisEntry}
    (h : items.mapM AxisEntry.ofLiteral? = some entries) :
    (∀ x, .fraction x ∉ entries) ↔ ∀ x, .float x ∉ items := by
  rw [mapM_eq_some_iff] at h
  constructor
  · intro hnone x hx
    obtain ⟨a, ha, hax⟩ := exists_of_forall₂ h.flip _ hx
    cases hax
    exact hnone x ha
  · intro hnone x hx
    obtain ⟨y, hy, hyx⟩ := exists_of_forall₂ h _ hx
    cases y with
    | float z =>
      cases hyx
      exact hnone x hy
    | _ => cases hyx

/-- **Attributes that are accepted make a usable operator, but for strides below 1 and
axes with a point.** A convolution that is built has two numbers above zero as strides,
rounded down. It is usable if and only if what is stored is at least 1, that is, if both
numbers were. Otherwise it can only fail by dividing by zero besides. A transposition
that is built without a permutation is usable. One that is built with a permutation is
if and only if what is stored indexes shapes, that is, if no axis was given with a point.
Otherwise it can only fail besides by an axis of the wrong kind. -/
theorem Operator.build_usable (attrs : Attributes) (op : Operator) :
    (Operator.build "Conv2D" attrs = .ok op → ∃ p q : Rat, StridesGiven attrs p q ∧ 0 < p ∧ 0 < q ∧
      op = .convolution .sequential ⌊p⌋₊ ⌊q⌋₊ ∧ (op.Usable ↔ 1 ≤ ⌊p⌋₊ ∧ 1 ≤ ⌊q⌋₊) ∧
      (1 ≤ ⌊p⌋₊ ∧ 1 ≤ ⌊q⌋₊ ↔ 1 ≤ p ∧ 1 ≤ q) ∧
      op.FailsOnly fun e => e.IsAnalysis ∨ e = .primitive .zeroDivisor) ∧
    (Operator.build "Transpose" attrs = .ok op →
      attrs.get "perm" = .none ∧ op = .transpose none ∧ op.Usable ∨
      ∃ items entries, (attrs.get "perm").items? = some items ∧
        items.mapM AxisEntry.ofLiteral? = some entries ∧ op = .transpose (some entries) ∧
        (op.Usable ↔ Indexes entries) ∧ (Indexes entries ↔ ∀ x, .float x ∉ items) ∧
        op.FailsOnly fun e => e.IsAnalysis ∨ e = .primitive .wrongKind) := by
  refine ⟨fun h => ?_, fun h => ?_⟩
  · obtain ⟨p, q, hgiven, hp, hq, rfl⟩ := build_convolution h
    refine ⟨p, q, hgiven, hp, hq, rfl, convolution_usable_iff, ?_, ?_⟩
    · rw [Nat.one_le_floor_iff, Nat.one_le_floor_iff]
    · exact (convolution_failsOnly _ _ _).mono fun e => Or.imp_right And.right
  · rcases build_transpose h with ⟨hnone, rfl⟩ | ⟨items, entries, hitems, hentries, rfl, hvalid⟩
    · exact .inl ⟨hnone, rfl, transpose_usable_iff.2 fun _ h => nomatch h⟩
    · refine .inr ⟨items, entries, hitems, hentries, rfl, ?_, ?_, ?_⟩
      · rw [transpose_usable_iff, indexes_iff hvalid]
        exact ⟨fun h => h entries rfl, fun h _ he => Option.some.inj he ▸ h⟩
      · rw [indexes_iff hvalid, forall_fraction_iff hentries]
      · exact (transpose_failsOnly _).mono fun e => Or.imp_right And.right

/-- A stride of one and a half is stored as 1, and a truth value is an axis: both
operators are usable. -/
theorem Operator.rounded_usable :
    (Operator.build "Conv2D" [("strides", .list [.float (.finite (mkRat 3 2)), .int 2])] =
        .ok (.convolution .sequential 1 2) ∧
      (Operator.convolution .sequential 1 2).Usable) ∧
    ∃ op, Operator.build "Transpose" [("perm", .list [.bool true, .int 0])] = .ok op ∧ op.Usable := by
  have hstrides : Operator.build "Conv2D" [("strides", .list [.float (.finite (mkRat 3 2)), .int 2])] =
      .ok (.convolution .sequential 1 2) := rfl
  have hperm : Operator.build "Transpose" [("perm", .list [.bool true, .int 0])] = .ok _ := rfl
  refine ⟨⟨hstrides, ?_⟩, _, hperm, ?_⟩
  · obtain ⟨p, q, -, -, -, hop, husable, -, -⟩ := (Operator.build_usable _ _).1 hstrides
    injection hop with _ hp hq
    exact husable.2 ⟨hp.le, one_le_two.trans hq.le⟩
  · rcases (Operator.build_usable _ _).2 hperm with
      ⟨-, -, husable⟩ | ⟨items, entries, hitems, -, -, husable, hindexes, -⟩
    · exact husable
    · cases hitems
      exact husable.2 (hindexes.2 (by simp))

/-- Strides of one half are accepted, and the convolution divides by zero; axes with a
point are accepted, and the transposition finds them to be of the wrong kind. -/
theorem Operator.halves_unusable :
    (∃ op, Operator.build "Conv2D" [("strides", .list [.float (.finite (mkRat 1 2)), .float (.finite (mkRat 1 2))])] =
        .ok op ∧ op.refine [onePixel, onePixel] .unknown = .error (.primitive .zeroDivisor)) ∧
    ∃ op, Operator.build "Transpose" [("perm", .list [.float (.finite 0), .float (.finite 1)])] = .ok op ∧
      op.refine [.unknown] .unknown = .error (.primitive .wrongKind) :=
  ⟨⟨_, rfl, rfl⟩, _, rfl, rfl⟩

end EdgeFacts
