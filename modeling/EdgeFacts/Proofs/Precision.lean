/-
# Runs come to an end

Facts have a precision, which grows whenever a fact says something new
(`TensorFact.Refines.precision_lt`). Shapes have infinite descending chains, but
the operators of the library never give a shape more dimensions than its
neighbours or their own attributes have (`Operator.refine_rank_le`), so along a
run over them precision has a bound (`Analysis.precision_le`). A round that
changes a fact makes the analysis more precise, and a run has enough fuel to
settle.

Key definitions: `TensorFact.precision`, `Analysis.precision`, `Analysis.RankAtMost`.
Key theorems: `TensorFact.Refines.precision_lt`, `Operator.refine_rank_le`,
`Analysis.precision_lt_of_visit`, `Analysis.exists_run`.
-/
import Mathlib.Algebra.Order.BigOperators.Group.List
import Mathlib.Algebra.Order.Ring.Nat
import EdgeFacts.Proofs.Rules
import EdgeFacts.Proofs.Run

namespace EdgeFacts

/-! ### The precision of facts -/

/-- A dimension counts once for being there and once for being determined. -/
def DimFact.precision : DimFact → Nat
  | any => 1
  | _ => 2

/-- A shape counts once for being closed. -/
def ShapeFact.precision (s : ShapeFact) : Nat :=
  (if s.isOpen then 0 else 1) + (s.dims.map DimFact.precision).sum

/-- A fact counts once for a known datatype and once for a known value. -/
def TensorFact.precision (f : TensorFact) : Nat :=
  (if f.dtype.isSome then 1 else 0) + f.shape.precision + if f.value.isSome then 1 else 0

theorem DimFact.Refines.precision_le {a b : DimFact} (h : a.Refines b) :
    b.precision ≤ a.precision ∧ (b.precision = a.precision → a = b) := by
  rcases h with rfl | rfl
  · cases a <;> simp [DimFact.precision]
  · exact ⟨Nat.le_refl _, fun _ => rfl⟩

namespace ShapeFact

theorem DimsRefine.precision_le {p : Bool} : ∀ {as bs : List DimFact}, DimsRefine p as bs →
    (bs.map DimFact.precision).sum ≤ (as.map DimFact.precision).sum ∧
      ((bs.map DimFact.precision).sum = (as.map DimFact.precision).sum → as = bs)
  | [], [], _ => by simp
  | a :: as, [], _ => by cases a <;> simp [DimFact.precision] <;> omega
  | [], _ :: _, h => h.elim
  | a :: as, b :: bs, h => by
    obtain ⟨hd, hde⟩ := h.1.precision_le
    obtain ⟨ht, hte⟩ := h.2.precision_le
    simp only [List.map_cons, List.sum_cons]
    refine ⟨by omega, fun he => ?_⟩
    rw [hde (by omega), hte (by omega)]

theorem Refines.precision_le {a b : ShapeFact} (h : a.Refines b) :
    b.precision ≤ a.precision ∧ (b.precision = a.precision → a = b) := by
  obtain ⟨hd, hde⟩ := h.dims.precision_le
  have hc := h.closed
  rcases a with ⟨as, p⟩
  rcases b with ⟨bs, q⟩
  simp only [precision] at hd hde ⊢
  cases p <;> cases q <;> simp_all
  omega

/-- The precision of a shape is bounded by its number of dimensions. -/
theorem precision_le_rank (s : ShapeFact) : s.precision ≤ 2 * s.dims.length + 1 := by
  have key : ∀ ds : List DimFact, (ds.map DimFact.precision).sum ≤ 2 * ds.length := by
    intro ds
    induction ds with
    | nil => simp
    | cons d ds ih =>
      have : d.precision ≤ 2 := by cases d <;> simp [DimFact.precision]
      simp only [List.map_cons, List.sum_cons, List.length_cons]
      omega
  have := key s.dims
  unfold precision
  split <;> omega

end ShapeFact

namespace TensorFact

theorem Refines.precision_le {a b : TensorFact} (h : a.Refines b) :
    b.precision ≤ a.precision ∧ (b.precision = a.precision → a.same b = true) := by
  obtain ⟨hs, hse⟩ := h.shape.precision_le
  have hd : (if b.dtype.isSome then 1 else 0) ≤ (if a.dtype.isSome then 1 else 0) ∧
      ((if b.dtype.isSome then 1 else 0) = (if a.dtype.isSome then 1 else 0) → a.dtype = b.dtype) := by
    have := h.dtype
    cases hb : b.dtype <;> cases ha : a.dtype <;> simp_all [DTypeRefines]
  have hv : (if b.value.isSome then 1 else 0) ≤ (if a.value.isSome then 1 else 0) ∧
      ((if b.value.isSome then 1 else 0) = (if a.value.isSome then 1 else 0) →
        sameExact Tensor.same a.value b.value = true) := by
    have := h.value
    cases hb : b.value <;> cases ha : a.value <;> simp_all [ValueRefines, sameExact]
  simp only [precision]
  refine ⟨by omega, fun he => ?_⟩
  simp [same, hd.2 (by omega), hse (by omega), hv.2 (by omega)]

/-- A fact that says something new is more precise. -/
theorem Refines.precision_lt {a b : TensorFact} (h : a.Refines b) (hs : a.same b = false) :
    b.precision < a.precision := by
  obtain ⟨hle, he⟩ := h.precision_le
  refine Nat.lt_of_le_of_ne hle fun heq => ?_
  rw [he heq] at hs
  cases hs

/-- Twice for each dimension, and for datatype, value and closure. -/
theorem precision_le_rank (f : TensorFact) : f.precision ≤ 2 * f.shape.dims.length + 3 := by
  have := f.shape.precision_le_rank
  unfold precision
  split <;> split <;> omega

end TensorFact

/-! ### The rank of what is inferred -/

/-- Whether a fact lists at most some number of dimensions. -/
def TensorFact.RankAtMost (r : Nat) (f : TensorFact) : Prop := f.shape.dims.length ≤ r

theorem ShapeFact.meetDims?_length_le {p q : Bool} : ∀ {as bs cs : List DimFact},
    meetDims? p q as bs = some cs → cs.length ≤ max as.length bs.length
  | [], [], cs, h => by cases h; simp
  | a :: as, [], cs, h => by
    cases q with
    | true => cases h; simp
    | false => cases h
  | [], b :: bs, cs, h => by
    cases p with
    | true => cases h; simp
    | false => cases h
  | a :: as, b :: bs, cs, h => by
    simp only [meetDims?] at h
    split at h
    · rename_i d rest hd hrest
      cases h
      have := meetDims?_length_le hrest
      simp only [List.length_cons]
      omega
    · cases h

theorem ShapeFact.meet_length_le {a b c : ShapeFact} (h : a.meet b = .ok c) :
    c.dims.length ≤ max a.dims.length b.dims.length := by
  obtain ⟨cs, hcs, rfl⟩ := Option.map_eq_some_iff.1 (orFail_eq_ok_iff.1 h)
  exact meetDims?_length_le hcs

theorem TensorFact.RankAtMost.meet {r : Nat} {f g m : TensorFact} (hf : f.RankAtMost r)
    (hg : g.RankAtMost r) (h : f.meet g = .ok m) : m.RankAtMost r := by
  have := ShapeFact.meet_length_le (meet_eq_ok h).2.1
  unfold RankAtMost at *
  omega

theorem broadcastDims_length_le : ∀ {as bs cs : List DimFact}, broadcastDims as bs = .ok cs →
    cs.length ≤ max as.length bs.length
  | [], bs, cs, h => by cases h; simp
  | a :: as, [], cs, h => by cases h; simp
  | a :: as, b :: bs, cs, h => by
    simp only [broadcastDims, bind_eq_ok_iff, pure_eq_ok] at h
    obtain ⟨d, -, rest, hrest, hcs⟩ := h
    cases hcs
    have := broadcastDims_length_le hrest
    simp only [List.length_cons]
    omega

theorem broadcastShapes_length_le {a b c : ShapeFact} (h : broadcastShapes a b = .ok c) :
    c.dims.length ≤ max a.dims.length b.dims.length := by
  unfold broadcastShapes at h
  split at h
  · cases h
    simp [ShapeFact.unknown, ShapeFact.starting]
  · simp only [bind_eq_ok_iff, pure_eq_ok] at h
    obtain ⟨cs, hcs, hc⟩ := h
    cases hc
    simpa [ShapeFact.closed] using broadcastDims_length_le hcs

theorem length_of_refines_ofRank {a : ShapeFact} {n : Nat} (h : a.Refines (.ofRank n)) :
    a.dims.length = n := by
  simpa using h.of_closed.2.length_eq

theorem refineTransposedShapes_length_le {perm : Option (List AxisEntry)} {x y a b : ShapeFact}
    {r : Nat} (hx : x.dims.length ≤ r) (hy : y.dims.length ≤ r)
    (hr : Analysis.rankOf (.transpose perm) ≤ r) (h : refineTransposedShapes perm x y = .ok (a, b)) :
    a.dims.length ≤ r ∧ b.dims.length ≤ r := by
  unfold refineTransposedShapes at h
  split at h
  · cases h
    exact ⟨hx, hy⟩
  · rename_i rank hrank
    simp only [bind_eq_ok_iff, pure_eq_ok] at h
    obtain ⟨entries, hes, x₁, hx₁, y₁, hy₁, axes, -, y₂, hy₂, x₂, hx₂, hab⟩ := h
    cases hab
    have ha := length_of_refines_ofRank
      ((ShapeFact.isMeet.lower hx₂).1.trans (ShapeFact.isMeet.lower hx₁).2)
    have hb := length_of_refines_ofRank
      ((ShapeFact.isMeet.lower hy₂).1.trans (ShapeFact.isMeet.lower hy₁).2)
    have rank_le (s : ShapeFact) {n : Nat} (hs : s.rank? = some n) : n = s.dims.length := by
      unfold ShapeFact.rank? at hs
      split at hs
      · cases hs
      · exact (Option.some.inj hs).symm
    have hle : rank ≤ r := by
      unfold transposedRank? at hrank
      cases hxr : x.rank? with
      | some n =>
        have := rank_le x hxr
        simp [hxr] at hrank
        omega
      | none =>
        cases hyr : y.rank? with
        | some n =>
          have := rank_le y hyr
          simp [hxr, hyr] at hrank
          omega
        | none =>
          cases perm with
          | none => simp [hxr, hyr] at hrank
          | some es =>
            simp [hxr, hyr] at hrank
            simp only [Analysis.rankOf] at hr
            omega
    exact ⟨ha ▸ hle, hb ▸ hle⟩

section

variable {r : Nat} {x k y out : TensorFact} {ins : List TensorFact}

theorem refineElementwise_rank_le {op : Operator} {invertible : Bool} (hx : x.RankAtMost r)
    (hy : y.RankAtMost r) (h : refineElementwise op invertible x y = .ok (ins, some out)) :
    (∀ f ∈ ins, f.RankAtMost r) ∧ out.RankAtMost r := by
  obtain ⟨m, hm, -, hout, rfl⟩ := refineElementwise_eq_ok h
  have hx' : x.withoutValue.RankAtMost r := hx
  have hy' : y.withoutValue.RankAtMost r := hy
  have hm' : m.RankAtMost r := hx'.meet hy' hm
  rw [hout]
  exact ⟨List.forall_mem_singleton.2 hm', hm'⟩

theorem refineTranspose_rank_le {perm : Option (List AxisEntry)} (hx : x.RankAtMost r) (hy : y.RankAtMost r)
    (hperm : Analysis.rankOf (.transpose perm) ≤ r) (h : refineTranspose perm x y = .ok (ins, some out)) :
    (∀ f ∈ ins, f.RankAtMost r) ∧ out.RankAtMost r := by
  obtain ⟨before, -, hshapes, -, rfl⟩ := refineTranspose_eq_ok h
  have hle := refineTransposedShapes_length_le hx hy hperm hshapes
  exact ⟨List.forall_mem_singleton.2 hle.1, hle.2⟩

theorem refineAdd_rank_le (hx : x.RankAtMost r) (hk : k.RankAtMost r) (hy : y.RankAtMost r)
    (h : refineAdd x k y = .ok (ins, some out)) :
    (∀ f ∈ ins, f.RankAtMost r) ∧ out.RankAtMost r := by
  obtain ⟨d, s, -, -, hs, hshape, -, rfl⟩ := refineAdd_eq_ok h
  have operand : (TensorFact.ofShape out.dtype .unknown).RankAtMost r := Nat.zero_le r
  have hbroadcast := broadcastShapes_length_le hs
  have hmeet := ShapeFact.meet_length_le hshape
  unfold TensorFact.RankAtMost at hx hk hy
  refine ⟨List.forall_mem_cons.2 ⟨operand, List.forall_mem_singleton.2 operand⟩, ?_⟩
  show out.shape.dims.length ≤ r
  omega

theorem ConvolvedShapes.length_eq {strideH strideW : Nat} {data filter output data' filter' output' : ShapeFact}
    (h : ConvolvedShapes strideH strideW data filter output data' filter' output') :
    data'.dims.length = 4 ∧ filter'.dims.length = 4 ∧ output'.dims.length = 4 := by
  obtain ⟨_, _, _, _, _, _, _, _, _, _, _, _, _, _, _, _, _, _, _, -, -, -, -, -, -, -, -, -, -, rfl, rfl, rfl⟩ := h
  exact ⟨rfl, rfl, rfl⟩

theorem refineConvolution_rank_le {sums : Contraction} {strideH strideW : Nat} (hr : 4 ≤ r)
    (h : refineConvolution sums strideH strideW x k y = .ok (ins, some out)) :
    (∀ f ∈ ins, f.RankAtMost r) ∧ out.RankAtMost r := by
  obtain ⟨d, sx, sk, -, -, hshapes, -, rfl⟩ := refineConvolution_eq_ok h
  obtain ⟨hx, hk, hy⟩ := hshapes.length_eq
  have data : (TensorFact.ofShape out.dtype sx).RankAtMost r := hx.trans_le hr
  have filter : (TensorFact.ofShape out.dtype sk).RankAtMost r := hk.trans_le hr
  exact ⟨List.forall_mem_cons.2 ⟨data, List.forall_mem_singleton.2 filter⟩, hy.trans_le hr⟩

end

/-- **No operator of the library adds dimensions.** What it infers has at most the
rank of its inputs, its output or its attributes. -/
theorem Operator.refine_rank_le {op : Operator} (hop : op.IsLibrary) {r : Nat} {xs ins : List TensorFact}
    {y out : TensorFact} (hx : ∀ x ∈ xs, x.RankAtMost r) (hy : y.RankAtMost r)
    (hr : Analysis.rankOf op ≤ r) (h : op.refine xs y = .ok (ins, some out)) :
    (∀ x ∈ ins, x.RankAtMost r) ∧ out.RankAtMost r := by
  rcases refine_cases hop h with ⟨t, rfl, -, rfl, rfl⟩ | ⟨fact, rfl, -, rfl, rfl⟩ |
    ⟨x, invertible, -, rfl, hrule⟩ | ⟨perm, x, rfl, rfl, hrule⟩ | ⟨a, b, rfl, rfl, hrule⟩ |
    ⟨sums, strideH, strideW, x, k, rfl, rfl, hrule⟩
  · have ht : (TensorFact.ofTensor t).RankAtMost r := by
      rw [TensorFact.RankAtMost, TensorFact.ofTensor, ShapeFact.ofExtents, ShapeFact.closed, List.length_map]
      exact hr
    exact ⟨List.forall_mem_nil _, ht⟩
  · exact ⟨List.forall_mem_nil _, hr⟩
  · exact refineElementwise_rank_le (hx x (.head _)) hy hrule
  · exact refineTranspose_rank_le (hx x (.head _)) hy hr hrule
  · exact refineAdd_rank_le (hx a (.head _)) (hx b (.tail _ (.head _))) hy hrule
  · exact refineConvolution_rank_le hr hrule

namespace Analysis

/-! ### The precision of an analysis -/

/-- The precision of all facts together. -/
def precision (a : Analysis) : Nat := (a.edges.map fun e => e.fact.precision).sum

/-- Whether all facts and all operators have at most some rank. -/
structure RankAtMost (r : Nat) (a : Analysis) : Prop where
  facts : ∀ e ∈ a.edges, e.fact.RankAtMost r
  ops : ∀ n ∈ a.nodes, rankOf n.op ≤ r

theorem rankAtMost_rankBound (a : Analysis) : RankAtMost a.rankBound a := by
  have key : ∀ (xs : List Nat) (start x : Nat), x ≤ start ∨ x ∈ xs → x ≤ xs.foldl max start := by
    intro xs
    induction xs with
    | nil => intro start x h; simpa using h
    | cons y ys ih =>
      intro start x h
      refine ih (max start y) x ?_
      simp only [List.mem_cons] at h
      rcases h with h | rfl | h
      · exact .inl (by omega)
      · exact .inl (by omega)
      · exact .inr h
  refine ⟨fun e he => key _ 0 _ (.inr ?_), fun n hn => key _ 0 _ (.inr ?_)⟩
  · exact List.mem_append_left _ (List.mem_map_of_mem he)
  · exact List.mem_append_right _ (List.mem_map_of_mem hn)

theorem precision_le {a : Analysis} {r : Nat} (h : RankAtMost r a) :
    a.precision ≤ a.edges.length * (2 * r + 3) := by
  have hle : ∀ x ∈ a.edges.map (fun e => e.fact.precision), x ≤ 2 * r + 3 := by
    intro x hx
    obtain ⟨e, he, rfl⟩ := List.mem_map.1 hx
    have h₁ := e.fact.precision_le_rank
    have h₂ : e.fact.shape.dims.length ≤ r := h.facts e he
    omega
  simpa [precision, Nat.mul_comm] using List.sum_le_card_nsmul _ _ hle

theorem sum_le_of_forall₂ : ∀ {ms ns : List Nat}, List.Forall₂ (· ≤ ·) ms ns →
    ms.sum ≤ ns.sum ∧ (ms.sum = ns.sum → ms = ns)
  | [], [], .nil => by simp
  | m :: ms, n :: ns, .cons h hs => by
    obtain ⟨hle, he⟩ := sum_le_of_forall₂ hs
    simp only [List.sum_cons]
    refine ⟨by omega, fun heq => ?_⟩
    rw [he (by omega), show m = n by omega]

theorem Refines.forall₂ {a b : Analysis} (h : Refines a b) :
    List.Forall₂ (· ≤ ·) (b.edges.map fun e => e.fact.precision) (a.edges.map fun e => e.fact.precision) := by
  rw [List.forall₂_map_left_iff, List.forall₂_map_right_iff, List.forall₂_iff_get]
  refine ⟨h.length_edges.symm, fun j hb ha => ?_⟩
  exact (h.facts j _ _ (List.getElem?_eq_getElem ha) (List.getElem?_eq_getElem hb)).precision_le.1

theorem Refines.precision_le {a b : Analysis} (h : Refines a b) : b.precision ≤ a.precision :=
  (sum_le_of_forall₂ h.forall₂).1

/-- An analysis that knows something new is more precise. -/
theorem Refines.precision_lt {a b : Analysis} (h : Refines a b) {j : Nat} {e d : Edge}
    (he : a.edges[j]? = some e) (hd : b.edges[j]? = some d) (hs : e.fact.same d.fact = false) :
    b.precision < a.precision := by
  refine Nat.lt_of_le_of_ne h.precision_le fun heq => ?_
  have hlist := (sum_le_of_forall₂ h.forall₂).2 heq
  have hj := congrArg (fun l => l[j]?) hlist
  simp only [List.getElem?_map, he, hd, Option.map_some, Option.some.injEq] at hj
  exact absurd hj (Nat.ne_of_lt ((h.facts j e d he hd).precision_lt hs))

/-! ### Runs over operators of the library -/

/-- Facts that list at most some number of dimensions meet in such facts. -/
theorem meetClosed_rankAtMost (r : Nat) : TensorFact.MeetClosed (TensorFact.RankAtMost r) where
  unknown := Nat.zero_le r
  meet hf hg hm := hf.meet hg hm

theorem visit_rankAtMost {a a' : Analysis} {i r : Nat} {changed : Bool} (hlib : OfLibrary a)
    (hr : RankAtMost r a) (h : a.visit i = .ok (changed, a')) : RankAtMost r a' where
  facts := (meetClosed_rankAtMost r).visit hr.facts (fun n hn _ _ _ _ hfs hy href =>
    Operator.refine_rank_le (hlib n hn) hfs hy (hr.ops n hn) href) h
  ops n hn := hr.ops n ((visit_refines h).toSameGraph.nodes ▸ hn)

/-- A visit that reports a change makes the analysis more precise. -/
theorem precision_lt_of_visit {a a' : Analysis} {i : Nat} (hl : Linked a) (hp : Planned a)
    (hi : i ∈ a.plan) (h : a.visit i = .ok (true, a')) : a.precision < a'.precision := by
  obtain ⟨j, e, d, he, hd, hs⟩ := visit_changed hl hp hi h
  exact (visit_refines h).precision_lt he hd hs

/-- What bounds the precision of an analysis through all of a run. -/
structure Bounded (r length : Nat) (a : Analysis) : Prop where
  library : OfLibrary a
  rank : RankAtMost r a
  length_edges : a.edges.length = length

theorem runInvariant_bounded (r length : Nat) : RunInvariant (Bounded r length) where
  movedTo _ _ _ h := ⟨h.library, ⟨h.rank.facts, h.rank.ops⟩, h.length_edges⟩
  visit _ h _ hv := by
    have hsame := (visit_refines hv).toSameGraph
    refine ⟨?_, visit_rankAtMost h.library h.rank hv, hsame.length_edges.trans h.length_edges⟩
    rw [OfLibrary, hsame.nodes]
    exact h.library

theorem steps_precision {r length : Nat} : ∀ {n : Nat} {a a' : Analysis} {changed : Bool},
    WellFormed a → Bounded r length a → steps n a = (.ok changed, a') →
    a.precision ≤ a'.precision ∧ (changed = true → a.precision < a'.precision)
  | 0, a, a', changed, _, _, h => by
    cases h
    exact ⟨Nat.le_refl _, fun h => (nomatch h)⟩
  | n + 1, a, a', changed, hw, hb, h => by
    simp only [steps] at h
    split at h
    · cases h
    · rename_i first b hs
      split at h
      · rename_i later c hr
        cases h
        obtain ⟨hwb, hbb⟩ := (runInvariant_bounded r length).step hw hb hs
        obtain ⟨tail, htail⟩ := steps_precision hwb hbb hr
        have head : a.precision ≤ b.precision ∧ (first = true → a.precision < b.precision) := by
          obtain ⟨i, d, hi, hv, rfl⟩ := (step_eq_ok_iff (List.ne_nil_of_mem hw.output_mem)).1 hs
          obtain ⟨p, k, f, hm⟩ := d.moveOn_eq
          rw [hm]
          change a.precision ≤ d.precision ∧ (_ → a.precision < d.precision)
          refine ⟨(visit_refines hv).precision_le, fun hf => ?_⟩
          subst hf
          exact precision_lt_of_visit hw.toLinked hw.toPlanned (List.mem_of_getElem? hi) hv
        refine ⟨Nat.le_trans head.1 tail, fun hc => ?_⟩
        rcases Bool.or_eq_true_iff.1 hc with hf | hf
        · exact Nat.lt_of_lt_of_le (head.2 hf) tail
        · exact Nat.lt_of_le_of_lt head.1 (htail hf)
      · cases h

theorem pass_precision {r length : Nat} {a a' : Analysis} {changed : Bool} (hw : WellFormed a)
    (hb : Bounded r length a) (h : a.pass = (.ok changed, a')) :
    a.precision ≤ a'.precision ∧ (changed = true → a.precision < a'.precision) := by
  have hwstart : WellFormed (a.movedTo a.passIndex 0 a.forward) :=
    movedTo_wellFormed hw (Nat.lt_of_le_of_lt (Nat.zero_le _) hw.stepIndex_lt)
  have hstart := (runInvariant_bounded r length).movedTo a.passIndex 0 a.forward hb
  have hsteps : steps a.plan.length (a.movedTo a.passIndex 0 a.forward) = (.ok changed, a') := h
  have hgrow := steps_precision hwstart hstart hsteps
  exact hgrow

theorem round_precision {r length : Nat} {a a' : Analysis} {changed : Bool} (hw : WellFormed a)
    (hb : Bounded r length a) (h : a.round = (.ok changed, a')) :
    a.precision ≤ a'.precision ∧ (changed = true → a.precision < a'.precision) := by
  have hI := runInvariant_bounded r length
  have hwstart : WellFormed (a.movedTo a.passIndex a.stepIndex true) :=
    movedTo_wellFormed hw hw.stepIndex_lt
  have hstart := hI.movedTo a.passIndex a.stepIndex true hb
  have hafter := hI.pass hwstart hstart
  unfold round at h
  split at h
  · cases h
  · rename_i first b hr
    change pass (a.movedTo a.passIndex a.stepIndex true) = _ at hr
    rw [hr] at hafter
    split at h
    · cases h
    · rename_i later c hr'
      cases h
      have head := pass_precision hwstart hstart hr
      change a.precision ≤ b.precision ∧ (first = true → a.precision < b.precision) at head
      have tail := pass_precision hafter.1 hafter.2 hr'
      refine ⟨Nat.le_trans head.1 tail.1, fun hc => ?_⟩
      rcases Bool.or_eq_true_iff.1 hc with hf | hf
      · exact Nat.lt_of_lt_of_le (head.2 hf) tail.1
      · exact Nat.lt_of_le_of_lt head.1 (tail.2 hf)

section Settling

variable {P : Analysis → Prop} (hv : ∀ {a : Analysis} {i : Nat}, WellFormed a → P a → i ∈ a.plan →
  ∃ changed a', a.visit i = .ok (changed, a'))
  (hP : RunInvariant P)
include hv hP

theorem exists_rounds {r length : Nat} : ∀ {fuel done : Nat} {a : Analysis}, WellFormed a → P a →
    Bounded r length a → length * (2 * r + 3) < a.precision + fuel →
    ∃ a', rounds none fuel done a = (.ok (), a')
  | 0, _, a, _, _, hb, hf => by
    have := precision_le hb.rank
    rw [hb.length_edges] at this
    omega
  | fuel + 1, done, a, hw, h, hb, hf => by
    obtain ⟨changed, b, hr⟩ := exists_round hv hP hw h
    have hafter := hP.round hw h
    have hbb := (runInvariant_bounded r length).round hw hb
    rw [hr] at hafter hbb
    cases changed with
    | false => exact ⟨b, by simp only [rounds, hr]⟩
    | true =>
      have hlt := (round_precision hw hb hr).2 rfl
      have hfuel : length * (2 * r + 3) < b.precision + fuel := by omega
      obtain ⟨c, hc⟩ : ∃ c, rounds none fuel (done + 1) b = (.ok (), c) :=
        exists_rounds hafter.1 hafter.2 hbb.2 hfuel
      exact ⟨c, by simpa [rounds, hr] using hc⟩

/-- A run over operators of the library whose visits succeed settles if it has no limit. -/
theorem exists_run {a : Analysis} (hw : WellFormed a) (h : P a) (hlib : OfLibrary a)
    (hlimit : a.roundLimit = none) : ∃ a', a.run = (.ok (), a') := by
  have hb : Bounded a.rankBound a.edges.length (a.movedTo 0 a.stepIndex a.forward) :=
    ⟨hlib, ⟨(rankAtMost_rankBound a).facts, (rankAtMost_rankBound a).ops⟩, rfl⟩
  have hfuel : a.edges.length * (2 * a.rankBound + 3) <
      (a.movedTo 0 a.stepIndex a.forward).precision + a.roundBound := by
    simp only [roundBound]
    omega
  obtain ⟨a', ha'⟩ : ∃ a', rounds none a.roundBound 0 (a.movedTo 0 a.stepIndex a.forward) = (.ok (), a') :=
    exists_rounds hv hP (movedTo_wellFormed hw hw.stepIndex_lt)
      (hP.movedTo 0 a.stepIndex a.forward h) hb hfuel
  refine ⟨a', ?_⟩
  simp only [run, hlimit, Option.getD_none]
  rw [movedTo, hlimit] at ha'
  exact ha'

end Settling

end Analysis

end EdgeFacts
