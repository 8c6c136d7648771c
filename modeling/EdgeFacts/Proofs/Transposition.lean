/-
# Transposition is exact in both directions

A list is another one permuted if at each place stands what the other has at the axis
given for the place (`Permuted`). If the rank of a transposition is known, it finds
the shapes before and after it that allow exactly the lists of extents that both
facts allow and of which the second is the first one permuted
(`Operator.transpose_exact`). Pairs of that kind say of themselves all that the
operator could add (`refineTransposedShapes_self`), so by monotonicity it accepts
whatever allows such a pair; and what it infers is such a pair
(`refineTransposedShapes_transposes`).

Key definitions: `Permuted`, `inverseAxes`, `axesAt`, `Transposes`, `inversePermutation`.
Key theorems: `permuted_iff_inverse`, `refineTransposedShapes_self`,
`refineTransposedShapes_transposes`, `Operator.transpose_exact`.
-/
import EdgeFacts.Proofs.Intersection
import EdgeFacts.Proofs.Prediction
import EdgeFacts.Proofs.Sorting

namespace EdgeFacts

namespace ShapeFact

theorem eq_closed_of_refines {a : ShapeFact} {bs : List DimFact} (h : a.Refines (.closed bs)) :
    ∃ as, a = .closed as ∧ List.Forall₂ DimFact.Refines as bs := by
  obtain ⟨hclosed, hdims⟩ := h.of_closed
  rcases a with ⟨as, isOpen⟩
  cases hclosed
  exact ⟨as, rfl, hdims⟩

theorem closed_refines_ofRank (ds : List DimFact) : (closed ds).Refines (.ofRank ds.length) := by
  refine closed_refines_closed_iff.2 ?_
  rw [← List.map_const', List.forall₂_map_right_iff]
  exact List.forall₂_same.2 fun d _ => d.refines_any

theorem Allows.length_eq {s : ShapeFact} {extents : List Extent} {n : Nat} (h : s.Allows extents)
    (hs : s.rank? = some n) : extents.length = n := by
  unfold rank? at hs
  split at hs
  · cases hs
  · rename_i hopen
    cases hs
    exact h.closed (Bool.eq_false_iff.2 hopen)

end ShapeFact

/-! ### Permuted lists -/

/-- Whether a list is another one permuted: at each place stands what the other has
at the axis given for the place. -/
structure Permuted {α : Type} (axes : List Nat) (s t : List α) : Prop where
  length_left : s.length = axes.length
  length_right : t.length = axes.length
  getElem?_eq : ∀ i p : Nat, axes[i]? = some p → t[i]? = s[p]?

/-- The places at which the axes are given, in the order of the axes. -/
def inverseAxes (axes : List Nat) : List Nat := (List.range axes.length).map axes.idxOf

section

variable {α : Type} {axes : List Nat} {s t : List α}

@[simp] theorem length_inverseAxes (axes : List Nat) : (inverseAxes axes).length = axes.length := by
  simp [inverseAxes]

theorem Permuted.map {β : Type} (f : α → β) (h : Permuted axes s t) : Permuted axes (s.map f) (t.map f) where
  length_left := by rw [List.length_map, h.length_left]
  length_right := by rw [List.length_map, h.length_right]
  getElem?_eq i p hp := by rw [List.getElem?_map, List.getElem?_map, h.getElem?_eq i p hp]

variable (haxes : axes.Perm (List.range axes.length))
include haxes

theorem lt_of_mem_axes {p : Nat} (hp : p ∈ axes) : p < axes.length :=
  List.mem_range.1 (haxes.mem_iff.1 hp)

theorem mem_axes {p : Nat} (hp : p < axes.length) : p ∈ axes :=
  haxes.mem_iff.2 (List.mem_range.2 hp)

/-- At the place at which an axis is given stands that axis. -/
theorem getElem?_inverseAxes {i p : Nat} : (inverseAxes axes)[p]? = some i ↔ axes[i]? = some p := by
  have hnodup : axes.Nodup := haxes.nodup_iff.2 List.nodup_range
  simp only [inverseAxes, List.getElem?_map, Option.map_eq_some_iff]
  constructor
  · rintro ⟨k, hk, rfl⟩
    obtain ⟨hlt, rfl⟩ := List.getElem?_eq_some_iff.1 hk
    rw [List.getElem_range]
    have hmem : p ∈ axes := mem_axes haxes (by simpa using hlt)
    exact List.getElem?_idxOf hmem
  · intro h
    obtain ⟨hlt, rfl⟩ := List.getElem?_eq_some_iff.1 h
    have hrange : axes[i] < axes.length := lt_of_mem_axes haxes (List.getElem_mem hlt)
    exact ⟨axes[i], List.getElem?_range hrange, hnodup.idxOf_getElem i hlt⟩

theorem inverseAxes_perm : (inverseAxes axes).Perm (List.range (inverseAxes axes).length) := by
  have hnodup : axes.Nodup := haxes.nodup_iff.2 List.nodup_range
  have hself : axes.map axes.idxOf = List.range axes.length := by
    refine List.ext_getElem (by simp) fun i hi _ => ?_
    rw [List.getElem_map, List.getElem_range, hnodup.idxOf_getElem]
  rw [length_inverseAxes, ← hself]
  exact haxes.symm.map _

theorem permuted_iff_inverse : Permuted axes s t ↔ Permuted (inverseAxes axes) t s := by
  constructor
  · rintro ⟨hs, ht, h⟩
    refine ⟨by simpa using ht, by simpa using hs, fun p i hp => ?_⟩
    exact (h i p ((getElem?_inverseAxes haxes).1 hp)).symm
  · rintro ⟨ht, hs, h⟩
    refine ⟨by simpa using hs, by simpa using ht, fun i p hi => ?_⟩
    exact (h p i ((getElem?_inverseAxes haxes).2 hi)).symm

/-- The permuted list is the one of what stands at the axes. -/
theorem permuted_iff (d : α) :
    Permuted axes s t ↔ s.length = axes.length ∧ t = axes.map fun p => s.getD p d := by
  constructor
  · rintro ⟨hs, ht, h⟩
    refine ⟨hs, List.ext_getElem? fun i => ?_⟩
    rw [List.getElem?_map]
    cases hi : axes[i]? with
    | none => simpa [ht] using hi
    | some p =>
      have hp : p < s.length := hs ▸ lt_of_mem_axes haxes (List.mem_of_getElem? hi)
      simp [h i p hi, hp]
  · rintro ⟨hs, rfl⟩
    refine ⟨hs, by simp, fun i p hi => ?_⟩
    have hp : p < s.length := hs ▸ lt_of_mem_axes haxes (List.mem_of_getElem? hi)
    simp [hi, hp]

end

/-! ### Transposed lists -/

/-- The axes that a transposition takes at a rank: those of its permutation, or all
of them in reverse. -/
def axesAt (perm : Option (List Int)) (rank : Nat) : List Nat :=
  match perm with
  | some ns => ns.map Int.toNat
  | none => (List.range rank).reverse

/-- Whether a list is what a transposition makes of another one, the rank included. -/
def Transposes {α : Type} (perm : Option (List Int)) (s t : List α) : Prop :=
  Permuted (axesAt perm s.length) s t

/-- The permutation that undoes another one; the reversal undoes itself. -/
def inversePermutation (perm : Option (List Int)) : Option (List Int) :=
  perm.map fun ns => (inverseAxes (ns.map Int.toNat)).map Nat.cast

section

variable {perm : Option (List Int)} (hperm : ∀ ns, perm = some ns → IsPermutation ns)

theorem IsPermutation.axes {ns : List Int} (h : IsPermutation ns) :
    (ns.map Int.toNat).Perm (List.range (ns.map Int.toNat).length) := by
  have hlen : ns.length = (ns.map Int.toNat).length := (List.length_map Int.toNat).symm
  have hmap := h.map Int.toNat
  rwa [axisNumbers, List.map_map, show Int.toNat ∘ Nat.cast = id from rfl, List.map_id,
    hlen] at hmap

theorem IsPermutation.of_axes {axes : List Nat} (h : axes.Perm (List.range axes.length)) :
    IsPermutation (axes.map Nat.cast) := by
  rw [IsPermutation, List.length_map]
  exact h.map _

theorem permFor_axisEntries_iff {rank : Nat} {entries : List AxisEntry} :
    permFor (axisEntries perm) rank = .ok entries ↔
      (axesAt perm rank).length = rank ∧ entries = (axesAt perm rank).map .whole := by
  cases perm with
  | none => simp [permFor, axisEntries, axesAt, eq_comm]
  | some ns =>
    simp only [permFor, axisEntries, Option.map_some, axesAt, List.length_map]
    by_cases h : ns.length = rank
    · simp [h, eq_comm]
    · simp [h]

theorem positions_axes (axes : List Nat) : positions (axes.map .whole) = .ok axes := by
  simp only [positions, Operator.mapM_position?_whole]

theorem Transposes.eq_right {α : Type} {s t t' : List α} (h : Transposes perm s t) (h' : Transposes perm s t') :
    t = t' := by
  refine List.ext_getElem? fun i => ?_
  cases hi : (axesAt perm s.length)[i]? with
  | none =>
    have hlen : (axesAt perm s.length).length ≤ i := List.getElem?_eq_none_iff.1 hi
    rw [List.getElem?_eq_none (by rw [h.length_right]; exact hlen),
      List.getElem?_eq_none (by rw [h'.length_right]; exact hlen)]
  | some p => rw [h.getElem?_eq i p hi, h'.getElem?_eq i p hi]

/-- Transposed shapes allow some transposed lists of extents. -/
theorem Transposes.exists_allows {ds es : List DimFact} (h : Transposes perm ds es) :
    ∃ s t, (ShapeFact.closed ds).Allows s ∧ (ShapeFact.closed es).Allows t ∧ Transposes perm s t := by
  have hallows (ds : List DimFact) : (ShapeFact.closed ds).Allows (ds.map Extent.ofDim) := by
    refine ⟨?_, fun _ => List.length_map _⟩
    rw [List.take_of_length_le (by simp [ShapeFact.closed]), List.forall₂_map_right_iff]
    exact List.forall₂_same.2 fun d _ => d.allows_ofDim
  refine ⟨_, _, hallows ds, hallows es, ?_⟩
  rw [Transposes, List.length_map]
  exact Permuted.map Extent.ofDim h

/-- What a transposition does at a known rank. -/
theorem refineTransposedShapes_eq_ok_iff {x y a b : ShapeFact} {rank : Nat}
    (hrank : transposedRank? (axisEntries perm) x y = some rank) :
    refineTransposedShapes (axisEntries perm) x y = .ok (a, b) ↔
      (axesAt perm rank).length = rank ∧ ∃ x₁ y₁, x.meet (.ofRank rank) = .ok x₁ ∧
        y.meet (.ofRank rank) = .ok y₁ ∧
        y₁.meet (.closed ((axesAt perm rank).map fun p => x₁.dims.getD p .any)) = .ok b ∧
        x₁.meet (.closed ((inverseAxes (axesAt perm rank)).map fun i => b.dims.getD i .any)) = .ok a := by
  simp only [refineTransposedShapes, hrank, bind_eq_ok_iff, pure_eq_ok, permFor_axisEntries_iff, Except.ok.injEq]
  constructor
  · rintro ⟨_, ⟨hlen, rfl⟩, x₁, hx₁, y₁, hy₁, axes, haxes, y₂, hy₂, x₂, hx₂, hab⟩
    cases (positions_axes _).symm.trans haxes
    cases hab
    refine ⟨hlen, x₁, y₁, hx₁, hy₁, hy₂, ?_⟩
    rw [inverseAxes, hlen, List.map_map]
    exact hx₂
  · rintro ⟨hlen, x₁, y₁, hx₁, hy₁, hy₂, hx₂⟩
    rw [inverseAxes, hlen, List.map_map] at hx₂
    exact ⟨_, ⟨hlen, rfl⟩, x₁, hx₁, y₁, hy₁, _, positions_axes _, b, hy₂, a, hx₂, rfl⟩

include hperm

theorem axesAt_perm (rank : Nat) : (axesAt perm rank).Perm (List.range (axesAt perm rank).length) := by
  cases perm with
  | none =>
    simp only [axesAt, List.length_reverse, List.length_range]
    exact List.reverse_perm _
  | some ns => exact (hperm ns rfl).axes

theorem isPermutation_inverse : ∀ ns, inversePermutation perm = some ns → IsPermutation ns := by
  intro ms hms
  obtain ⟨ns, rfl, rfl⟩ := Option.map_eq_some_iff.1 hms
  exact .of_axes (inverseAxes_perm (hperm ns rfl).axes)

/-- The axes of the inverse are the places of the axes. -/
theorem axesAt_inverse (rank : Nat) : axesAt (inversePermutation perm) rank = inverseAxes (axesAt perm rank) := by
  cases perm with
  | none =>
    have haxes := axesAt_perm hperm rank
    simp only [inversePermutation, Option.map_none, axesAt] at haxes ⊢
    refine List.ext_getElem? fun p => Option.ext fun i => ?_
    rw [getElem?_inverseAxes haxes]
    simp only [List.getElem?_eq_some_iff, List.getElem_reverse, List.getElem_range, List.length_reverse,
      List.length_range, exists_prop]
    omega
  | some ns =>
    simp only [inversePermutation, Option.map_some, axesAt, List.map_map]
    exact List.map_id _

theorem transposes_iff_inverse {α : Type} {s t : List α} :
    Transposes perm s t ↔ Transposes (inversePermutation perm) t s := by
  have key : s.length = t.length → (Transposes perm s t ↔ Transposes (inversePermutation perm) t s) := by
    intro hlen
    rw [Transposes, Transposes, axesAt_inverse hperm, ← hlen]
    exact permuted_iff_inverse (axesAt_perm hperm _)
  constructor
  · intro h
    exact (key (h.length_left.trans h.length_right.symm)).1 h
  · intro h
    exact (key (h.length_right.trans h.length_left.symm)).2 h

/-! ### Transposed shapes -/

/-- A shape and the same one transposed leave nothing to be inferred. -/
theorem refineTransposedShapes_self {ds es : List DimFact} (h : Transposes perm ds es) :
    refineTransposedShapes (axisEntries perm) (.closed ds) (.closed es) = .ok (.closed ds, .closed es) := by
  have haxes := axesAt_perm hperm ds.length
  have hrank : transposedRank? (axisEntries perm) (.closed ds) (.closed es) = some ds.length := rfl
  have hforward := ((permuted_iff haxes .any).1 h).2
  have hback := ((permuted_iff (inverseAxes_perm haxes) .any).1 ((permuted_iff_inverse haxes).1 h)).2
  have hlen : es.length = ds.length := h.length_right.trans h.length_left.symm
  refine (refineTransposedShapes_eq_ok_iff hrank).2 ⟨h.length_left.symm, .closed ds, .closed es, ?_, ?_, ?_, ?_⟩
  · exact ShapeFact.meet_of_refines (ShapeFact.closed_refines_ofRank ds)
  · exact ShapeFact.meet_of_refines (hlen ▸ ShapeFact.closed_refines_ofRank es)
  · show (ShapeFact.closed es).meet (.closed ((axesAt perm ds.length).map fun p => ds.getD p .any)) = _
    rw [← hforward]
    exact ShapeFact.meet_of_refines (.refl _)
  · show (ShapeFact.closed ds).meet (.closed ((inverseAxes (axesAt perm ds.length)).map fun i => es.getD i .any)) = _
    rw [← hback]
    exact ShapeFact.meet_of_refines (.refl _)

/-- What allows a shape and the same one transposed is accepted, and what is inferred allows them. -/
theorem refineTransposedShapes_of_transposes {x y : ShapeFact} {ds es : List DimFact} (h : Transposes perm ds es)
    (hx : (ShapeFact.closed ds).Refines x) (hy : (ShapeFact.closed es).Refines y) :
    ∃ a b, refineTransposedShapes (axisEntries perm) x y = .ok (a, b) ∧
      (ShapeFact.closed ds).Refines a ∧ (ShapeFact.closed es).Refines b :=
  refineTransposedShapes_mono hx hy (refineTransposedShapes_self hperm h)

/-- **At a known rank the shapes that are inferred are closed, and the second is the
first one transposed.** -/
theorem refineTransposedShapes_transposes {x y a b : ShapeFact} {rank : Nat}
    (hrank : transposedRank? (axisEntries perm) x y = some rank)
    (h : refineTransposedShapes (axisEntries perm) x y = .ok (a, b)) :
    ∃ ds es, a = .closed ds ∧ b = .closed es ∧ Transposes perm ds es := by
  obtain ⟨hlen, x₁, y₁, hx₁, -, hb, ha⟩ := (refineTransposedShapes_eq_ok_iff hrank).1 h
  have haxes := axesAt_perm hperm rank
  obtain ⟨ds, rfl, hds⟩ := ShapeFact.eq_closed_of_refines (ShapeFact.isMeet.lower hx₁).2
  obtain ⟨es, rfl, hes⟩ := ShapeFact.eq_closed_of_refines (ShapeFact.isMeet.lower hb).2
  have hdslen : ds.length = rank := by simpa using hds.length_eq
  have heslen : es.length = rank := by simpa [hlen] using hes.length_eq
  -- what the output says is carried back, and says as much of the input as was known of it
  have hforward : Permuted (axesAt perm rank) ds ((axesAt perm rank).map fun p => ds.getD p .any) :=
    (permuted_iff haxes .any).2 ⟨hdslen.trans hlen.symm, rfl⟩
  have hback : Permuted (inverseAxes (axesAt perm rank)) es
      ((inverseAxes (axesAt perm rank)).map fun i => es.getD i .any) :=
    (permuted_iff (inverseAxes_perm haxes) .any).2 ⟨by rw [length_inverseAxes, heslen, hlen], rfl⟩
  have hds' := ((permuted_iff (inverseAxes_perm haxes) .any).1 ((permuted_iff_inverse haxes).1 hforward)).2
  have hrefines : (ShapeFact.closed ((inverseAxes (axesAt perm rank)).map fun i => es.getD i .any)).Refines
      (.closed ds) := by
    rw [ShapeFact.closed_refines_closed_iff, hds']
    exact forall₂_map_getD (ShapeFact.dimsRefine_false_iff.2 hes) _
  obtain ⟨a', ha', hle⟩ := ShapeFact.isMeet.greatest hrefines (.refl _)
  cases ha.symm.trans ha'
  have heq : a = .closed ((inverseAxes (axesAt perm rank)).map fun i => es.getD i .any) :=
    (ShapeFact.isMeet.lower ha).2.antisymm hle
  refine ⟨_, es, heq, rfl, ?_⟩
  rw [Transposes, List.length_map, length_inverseAxes, hlen]
  exact (permuted_iff_inverse haxes).2 hback

theorem refineTransposedShapes_known {ds es : List DimFact} (h : Transposes perm ds es) :
    refineTransposedShapes (axisEntries perm) (.closed ds) .unknown = .ok (.closed ds, .closed es) := by
  have hrank : transposedRank? (axisEntries perm) (.closed ds) .unknown = some ds.length := rfl
  obtain ⟨a, b, hab, ha, -⟩ :=
    refineTransposedShapes_of_transposes hperm h (.refl _) (ShapeFact.refines_unknown _)
  have heq : a = .closed ds := (refineTransposedShapes_lower hab).1.antisymm ha
  obtain ⟨ds', es', rfl, rfl, h'⟩ := refineTransposedShapes_transposes hperm hrank hab
  cases heq
  rw [hab, h.eq_right h']

/-! ### Transposed facts -/

theorem allows_of_transposes {x y : ShapeFact} {s t : List Extent} (h : Transposes perm s t) (hx : x.Allows s)
    (hy : y.Allows t) :
    ∃ a b, refineTransposedShapes (axisEntries perm) x y = .ok (a, b) ∧ a.Allows s ∧ b.Allows t := by
  have hmap : Transposes perm (s.map Extent.fact) (t.map Extent.fact) := by
    rw [Transposes, List.length_map]
    exact Permuted.map Extent.fact h
  simp only [ShapeFact.allows_iff_refines] at hx hy ⊢
  exact refineTransposedShapes_of_transposes hperm hmap hx hy

end

namespace Operator

variable {perm : Option (List Int)} {x y : TensorFact}

theorem refine_transpose_eq_ok_iff {p : Option (List AxisEntry)} {r : Refinement} :
    (transpose p).refine [x] y = .ok r ↔ ∃ d a b v, meetDType x.dtype y.dtype = .ok d ∧
      refineTransposedShapes p x.shape y.shape = .ok (a, b) ∧ knownOutput (transpose p) [x] = .ok v ∧
      r = ([.ofShape d a], some ⟨d, b, v⟩) := by
  show refineTranspose p x y = .ok r ↔ _
  simp only [refineTranspose, bind_eq_ok_iff, pure_eq_ok, Prod.exists, Except.ok.injEq]
  constructor
  · rintro ⟨d, hd, a, b, hab, v, hv, rfl⟩
    exact ⟨d, a, b, v, hd, hab, hv, rfl⟩
  · rintro ⟨d, a, b, v, hd, hab, hv, rfl⟩
    exact ⟨d, hd, a, b, hab, v, hv, rfl⟩

/-- A known input whose shape is accepted can be transposed. -/
theorem exists_knownOutput_transpose (hx : x.Coherent) {sy a b : ShapeFact}
    (h : refineTransposedShapes (axisEntries perm) x.shape sy = .ok (a, b)) :
    ∃ v, knownOutput (transpose (axisEntries perm)) [x] = .ok v ∧ (x.value = none → v = none) := by
  cases hv : x.value with
  | none => exact ⟨none, by simp [knownOutput, hv], fun _ => rfl⟩
  | some t =>
    rw [(hx t hv).2] at h
    obtain ⟨entries, hentries⟩ := exists_permFor h
    obtain ⟨-, rfl⟩ := permFor_axisEntries_iff.1 hentries
    have heval : (transpose (axisEntries perm)).eval [t] = .ok (t.permute (axesAt perm t.rank)) :=
      transposeTensor_eq_ok_iff.2 ⟨_, _, hentries, mapM_axis?_whole _, rfl⟩
    refine ⟨_, knownOutput_eq_some_iff.2 ⟨[t], by simp [hv], heval⟩, fun h => ?_⟩
    cases h

/-- The rank is known if there is a permutation or one of the shapes is closed. -/
theorem exists_transposedRank? {sx sy : ShapeFact}
    (h : perm ≠ none ∨ sx.isOpen = false ∨ sy.isOpen = false) :
    ∃ rank, transposedRank? (axisEntries perm) sx sy = some rank := by
  refine Option.isSome_iff_exists.1 ?_
  simp only [transposedRank?, Option.isSome_or, Option.isSome_map, axisEntries, ShapeFact.rank?]
  rcases h with h | h | h
  · simp [Option.isSome_iff_ne_none.2 h]
  · simp [h]
  · simp [h]

/-- **Transposition is exact in both directions.** Of facts of which one shape is closed,
or where a permutation is given, it accepts those that agree in the datatype and allow
some list of extents before it and the transposed list after it. Then the shapes that it
infers are closed, the one after it is the one before it transposed, and they allow such
a pair of lists exactly if the facts did. From what it infers it infers nothing else,
and the inverse transposition, which exists as well, infers from the shape after it the
shape before it. -/
theorem transpose_exact {op : Operator}
    (hop : Operator.build "Transpose" (transposeAttributes perm) = .ok op) (hx : x.Coherent)
    (hknown : perm ≠ none ∨ x.shape.isOpen = false ∨ y.shape.isOpen = false) :
    ((∃ r, op.refine [x] y = .ok r) ↔ (∃ d, meetDType x.dtype y.dtype = .ok d) ∧
      ∃ s t : List Extent, x.shape.Allows s ∧ y.shape.Allows t ∧ Transposes perm s t) ∧
    ∀ r, op.refine [x] y = .ok r → ∃ dtype value before after,
      r = ([.ofShape dtype (.closed before)], some ⟨dtype, .closed after, value⟩) ∧
      meetDType x.dtype y.dtype = .ok dtype ∧ (x.value = none → value = none) ∧
      Transposes perm before after ∧
      (∀ s t : List Extent, Transposes perm s t →
        ((ShapeFact.closed before).Allows s ∧ (ShapeFact.closed after).Allows t ↔
          x.shape.Allows s ∧ y.shape.Allows t)) ∧
      op.refine [.ofShape dtype (.closed before)] ⟨dtype, .closed after, value⟩ =
        .ok ([.ofShape dtype (.closed before)], some (.ofShape dtype (.closed after))) ∧
      ∃ inverse, Operator.build "Transpose" (transposeAttributes (inversePermutation perm)) = .ok inverse ∧
        inverse.refine [.ofShape dtype (.closed after)] .unknown =
          .ok ([.ofShape dtype (.closed after)], some (.ofShape dtype (.closed before))) := by
  obtain ⟨hperm, rfl⟩ := build_transpose_iff.1 hop
  obtain ⟨rank, hrank⟩ := exists_transposedRank? hknown
  refine ⟨⟨?_, ?_⟩, ?_⟩
  · rintro ⟨r, hr⟩
    obtain ⟨d, a, b, v, hd, hab, -, -⟩ := refine_transpose_eq_ok_iff.1 hr
    obtain ⟨ds, es, rfl, rfl, htransposes⟩ := refineTransposedShapes_transposes hperm hrank hab
    obtain ⟨s, t, hs, ht, hst⟩ := htransposes.exists_allows
    obtain ⟨hbefore, hafter⟩ := refineTransposedShapes_lower hab
    simp only [ShapeFact.allows_iff_refines] at hs ht ⊢
    exact ⟨⟨d, hd⟩, s, t, hs.trans hbefore, ht.trans hafter, hst⟩
  · rintro ⟨⟨d, hd⟩, s, t, hs, ht, hst⟩
    obtain ⟨a, b, hab, -⟩ := allows_of_transposes hperm hst hs ht
    obtain ⟨v, hv, -⟩ := exists_knownOutput_transpose hx hab
    exact ⟨_, refine_transpose_eq_ok_iff.2 ⟨d, a, b, v, hd, hab, hv, rfl⟩⟩
  · intro r hr
    obtain ⟨d, a, b, v, hd, hab, hv, rfl⟩ := refine_transpose_eq_ok_iff.1 hr
    obtain ⟨ds, es, rfl, rfl, htransposes⟩ := refineTransposedShapes_transposes hperm hrank hab
    have hvalue : x.value = none → v = none := by
      obtain ⟨v', hv', hnone⟩ := exists_knownOutput_transpose hx hab
      cases hv.symm.trans hv'
      exact hnone
    refine ⟨d, v, ds, es, rfl, hd, hvalue, htransposes, fun s t hst => ⟨?_, ?_⟩, ?_, ?_⟩
    · rintro ⟨hs, ht⟩
      obtain ⟨hbefore, hafter⟩ := refineTransposedShapes_lower hab
      simp only [ShapeFact.allows_iff_refines] at hs ht ⊢
      exact ⟨hs.trans hbefore, ht.trans hafter⟩
    · rintro ⟨hs, ht⟩
      obtain ⟨a', b', hab', hallows⟩ := allows_of_transposes hperm hst hs ht
      cases hab.symm.trans hab'
      exact hallows
    · refine refine_transpose_eq_ok_iff.2 ⟨d, _, _, none, ?_, refineTransposedShapes_self hperm htransposes, ?_, rfl⟩
      · exact meetDType_of_refines (dtypeRefines_refl d)
      · rfl
    · have hinv := isPermutation_inverse hperm
      refine ⟨_, build_transpose_iff.2 ⟨hinv, rfl⟩, refine_transpose_eq_ok_iff.2 ⟨d, _, _, none, ?_, ?_, ?_, rfl⟩⟩
      · exact meetDType_of_refines (dtypeRefines_none d)
      · exact refineTransposedShapes_known hinv ((transposes_iff_inverse hperm).1 htransposes)
      · rfl

/-- From the shape after a rotation of three axes the shape before it is inferred, and
from that one by the inverse rotation the shape before again. -/
theorem rotation_exact : ∃ rotation inverse,
    Operator.build "Transpose" (transposeAttributes (some [1, 2, 0])) = .ok rotation ∧
    Operator.build "Transpose" (transposeAttributes (inversePermutation (some [1, 2, 0]))) = .ok inverse ∧
    rotation.refine [.unknown] (.ofShape none (.ofExtents [3, 4, 2])) =
      .ok ([.ofShape none (.ofExtents [2, 3, 4])], some (.ofShape none (.ofExtents [3, 4, 2]))) ∧
    inverse.refine [.ofShape none (.ofExtents [3, 4, 2])] .unknown =
      .ok ([.ofShape none (.ofExtents [3, 4, 2])], some (.ofShape none (.ofExtents [2, 3, 4]))) := by
  have hop : Operator.build "Transpose" (transposeAttributes (some [1, 2, 0])) =
      .ok (transpose (axisEntries (some [1, 2, 0]))) := rfl
  obtain ⟨-, hexact⟩ := transpose_exact (x := .unknown) (y := .ofShape none (.ofExtents [3, 4, 2])) hop
    (TensorFact.coherent_ofShape none .unknown) (.inr (.inr rfl))
  have hr : (transpose (axisEntries (some [1, 2, 0]))).refine [.unknown] (.ofShape none (.ofExtents [3, 4, 2])) =
      .ok ([.ofShape none (.ofExtents [2, 3, 4])], some (.ofShape none (.ofExtents [3, 4, 2]))) := rfl
  obtain ⟨_, _, _, _, heq, -, -, -, -, -, inverse, hinverse, hback⟩ := hexact _ hr
  cases heq
  exact ⟨_, inverse, hop, hinverse, hr, hback⟩

end Operator

end EdgeFacts
