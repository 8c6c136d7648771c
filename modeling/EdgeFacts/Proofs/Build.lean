/-
# Operators that are built

Every operator that the library builds from attributes is an operator of the
library (`Operator.build_isLibrary`), so what is proved of these is proved of all
that a description of a graph can name. What takes an argument is the permutation
of a transposition: its items are compared with 0, 1, 2 and so on after they are
sorted, and sorting only moves items (`Literal.sort_perm`). Attributes that are
spelled in whole numbers are those numbers (`permOf_int`, `stridesOf_int`).

Key definitions: `Maker.OfLibrary`.
Key theorems: `Literal.sort_perm`, `permOf_valid`, `permOf_int`, `stridesOf_int`,
`Operator.build_isLibrary`.
-/
import EdgeFacts.Operator.Build
import EdgeFacts.Proofs.Result
import EdgeFacts.Proofs.Value

namespace EdgeFacts

namespace Literal

/-! ### Sorting moves items -/

theorem splitRun_perm {xs run rest : List Literal} (h : splitRun xs = .ok (run, rest)) :
    (run ++ rest).Perm xs := by
  match xs, h with
  | [], h =>
    cases h
    exact .refl _
  | [x], h =>
    cases h
    exact .refl _
  | x :: y :: zs, h =>
    simp only [splitRun, bind_eq_ok_iff, pure_eq_ok] at h
    obtain ⟨falling, -, n, -, h⟩ := h
    cases h
    have hall := List.Perm.of_eq (List.take_append_drop (n + 2) (x :: y :: zs))
    cases falling with
    | false => exact hall
    | true => exact ((List.reverse_perm _).append_right _).trans hall

theorem insertSorted_perm {xs ys : List Literal} {x : Literal} (h : insertSorted xs x = .ok ys) :
    ys.Perm (x :: xs) := by
  simp only [insertSorted, bind_eq_ok_iff, pure_eq_ok] at h
  obtain ⟨p, -, h⟩ := h
  cases h
  have hmid : (xs.take p ++ x :: xs.drop p).Perm (x :: (xs.take p ++ xs.drop p)) := List.perm_middle
  rwa [List.take_append_drop] at hmid

theorem foldlM_insertSorted_perm : ∀ {rest run ys : List Literal},
    rest.foldlM insertSorted run = .ok ys → ys.Perm (run ++ rest)
  | [], run, ys, h => by
    cases h
    rw [List.append_nil]
  | x :: rest, run, ys, h => by
    rw [List.foldlM_cons, bind_eq_ok_iff] at h
    obtain ⟨mid, hmid, h⟩ := h
    exact (foldlM_insertSorted_perm h).trans
      (((insertSorted_perm hmid).append_right rest).trans List.perm_middle.symm)

theorem sort_perm {xs ys : List Literal} (h : sort xs = .ok ys) : ys.Perm xs := by
  simp only [sort, bind_eq_ok_iff] at h
  obtain ⟨⟨run, rest⟩, hsplit, h⟩ := h
  exact (foldlM_insertSorted_perm h).trans (splitRun_perm hsplit)

theorem sameItems_iff {xs ys : List Literal} : sameItems xs ys = true ↔
    List.Forall₂ (fun x y => (x.isNan && y.isNan || same x y) = true) xs ys := by
  induction xs generalizing ys with
  | nil => cases ys <;> simp [sameItems]
  | cons x xs ih => cases ys <;> simp [sameItems, ih]

end Literal

/-! ### Permutations -/

/-- The axis that an item of a permutation stands for. -/
def axisOf (x : Literal) : Option Nat := (AxisEntry.ofLiteral? x).bind AxisEntry.position?

/-- An item that stands for an axis and is the same as a number stands for that number. -/
theorem eq_of_axisOf {x : Literal} {k p : Nat} (hx : axisOf x = some p)
    (h : (x.isNan && (Literal.int k).isNan || x.same (.int k)) = true) : p = k := by
  have hsame (q : Rat) (hq : x.number? = some (.finite q)) (hk : x.same (.int k) = true →
      Literal.sameNumber (.finite q) (.finite k) = true) : q = k := by
    have hfinite := hk (by simpa [Literal.isNan] using h)
    simpa [Literal.sameNumber, FloatDatum.same, FloatDatum.value] using hfinite
  cases x with
  | int n =>
    cases hx
    have hn : n = k := by exact_mod_cast hsame n rfl fun h => h
    rw [hn, Int.toNat_natCast]
  | bool b =>
    cases hx
    cases b with
    | false =>
      have hzero : (0 : Rat) = k := hsame 0 rfl fun h => h
      exact_mod_cast hzero
    | true =>
      have hone : (1 : Rat) = k := hsame 1 rfl fun h => h
      exact_mod_cast hone
  | _ => cases hx

theorem mapM_axisOf {items : List Literal} {perm : List AxisEntry} {axes : List Nat}
    (hperm : items.mapM AxisEntry.ofLiteral? = some perm) (haxes : perm.mapM AxisEntry.position? = some axes) :
    items.mapM axisOf = some axes := by
  rw [mapM_eq_some_iff] at hperm haxes ⊢
  refine (forall₂_comp hperm haxes).imp fun x p ⟨a, ha, hp⟩ => ?_
  rw [axisOf, ha]
  exact hp

/-- Items that are the numbers from 0 on in some order stand for them in that order. -/
theorem axes_perm {items sorted : List Literal} {axes : List Nat} (hsorted : sorted.Perm items)
    (hsame : Literal.sameItems sorted ((List.range items.length).map fun (n : Nat) => Literal.int n) = true)
    (haxes : items.mapM axisOf = some axes) : axes.Perm (List.range items.length) := by
  rw [mapM_eq_some_iff] at haxes
  have heq : axes = items.map fun x => (axisOf x).getD 0 := by
    refine (List.forall₂_eq_eq_eq ▸ (List.forall₂_map_left_iff.2 (haxes.imp fun x p hp => ?_))).symm
    rw [hp]
    rfl
  have hall : ∀ x ∈ sorted, ∃ p, axisOf x = some p := by
    intro x hx
    obtain ⟨p, -, hp⟩ := exists_of_forall₂ haxes.flip x (hsorted.mem_iff.1 hx)
    exact ⟨p, hp⟩
  have hrange : (sorted.map fun x => (axisOf x).getD 0) = List.range items.length := by
    have hnumbers := Literal.sameItems_iff.1 hsame
    rw [List.forall₂_map_right_iff] at hnumbers
    refine List.forall₂_eq_eq_eq ▸ List.forall₂_map_left_iff.2 ?_
    refine ((List.forall₂_and_left _ _).2 ⟨hall, hnumbers⟩).imp fun x k ⟨⟨p, hp⟩, hk⟩ => ?_
    rw [hp, Option.getD_some, eq_of_axisOf hp hk]
  rw [heq, ← hrange]
  exact (hsorted.map _).symm

theorem permOf_eq_ok {name : String} {x : Literal} {perm : List AxisEntry} (h : permOf name x = .ok perm) :
    ∃ items sorted, x.items? = some items ∧ sorted.Perm items ∧
      Literal.sameItems sorted ((List.range items.length).map fun (n : Nat) => Literal.int n) = true ∧
      items.mapM AxisEntry.ofLiteral? = some perm := by
  unfold permOf at h
  split at h
  · cases h
  · rename_i items hitems
    split at h
    · cases h
    · rename_i sorted hsorted
      dsimp only at h
      split at h
      · rename_i hsame
        split at h
        · rename_i hmap
          cases h
          exact ⟨items, sorted, hitems, Literal.sort_perm hsorted, hsame, hmap⟩
        · cases h
      · cases h

theorem permOf_valid {name : String} {x : Literal} {perm : List AxisEntry} (h : permOf name x = .ok perm) :
    Operator.ValidPerm perm := by
  obtain ⟨items, sorted, -, hsorted, hsame, hmap⟩ := permOf_eq_ok h
  intro axes haxes
  have hlen := (mapM_eq_some_iff.1 hmap).length_eq
  exact hlen ▸ axes_perm hsorted hsame (mapM_axisOf hmap haxes)

/-! ### Attributes that are whole numbers -/

theorem permOf_int {name : String} {ns : List Int} {perm : List AxisEntry}
    (h : permOf name (.list (ns.map .int)) = .ok perm) : perm = (ns.map Int.toNat).map .whole := by
  obtain ⟨_, -, hitems, -, -, hmap⟩ := permOf_eq_ok h
  cases hitems
  rw [mapM_eq_some_iff, List.forall₂_map_left_iff] at hmap
  rw [List.map_map]
  exact (List.forall₂_eq_eq_eq ▸ List.forall₂_map_left_iff.2 (hmap.imp fun n a ha => Option.some.inj ha)).symm

/-- Of whole numbers those are refused as strides that are not positive. -/
theorem someNotPositive_int (name : String) (ns : List Int) :
    someNotPositive name (ns.map .int) = .ok (ns.any fun n => decide (n ≤ 0)) := by
  induction ns with
  | nil => rfl
  | cons n ns ih =>
    have hle : (Literal.lessNumber (.finite n) (.finite 0) || (FloatDatum.finite n).isZero) = decide (n ≤ 0) := by
      simp only [Literal.lessNumber, FloatDatum.value, FloatDatum.isZero, Int.le_iff_lt_or_eq, Bool.decide_or]
      norm_cast
    simp only [List.map_cons, someNotPositive, Literal.number?, hle, ih, List.any_cons]
    cases decide (n ≤ 0) <;> rfl

theorem wholeStride_int (n : Int) : wholeStride (.int n) = .ok n.toNat := by
  simp [wholeStride, truncated, Literal.number?]

theorem stridesOf_int {name : String} {h w : Int} {a b : Nat}
    (hs : stridesOf name (.list [.int h, .int w]) = .ok (a, b)) : 0 < h ∧ 0 < w ∧ a = h.toNat ∧ b = w.toNat := by
  simp only [stridesOf, Literal.items?, bind_eq_ok_iff, wholeStride_int] at hs
  obtain ⟨refused, hpos, hs⟩ := hs
  cases (someNotPositive_int name [h, w]).symm.trans hpos
  split at hs
  · cases hs
  · rename_i hall
    cases hs
    simp only [List.any_cons, List.any_nil, Bool.or_false, Bool.or_eq_true, decide_eq_true_eq, not_or] at hall
    exact ⟨by omega, by omega, rfl, rfl⟩

/-! ### Makers -/

/-- The operators that a maker makes are operators of the library. -/
def Maker.OfLibrary (make : Maker) : Prop := ∀ name attrs op, make name attrs = .ok op → op.IsLibrary

theorem makePlain_ofLibrary {op : Operator} (hop : op.IsLibrary) : Maker.OfLibrary (makePlain op) := by
  intro name attrs op' h
  unfold makePlain at h
  split at h
  · cases h
    exact hop
  · cases h

theorem makeConst_ofLibrary : Maker.OfLibrary makeConst := by
  intro name attrs op h
  simp only [makeConst, bind_eq_ok_iff] at h
  obtain ⟨-, -, h⟩ := h
  split at h
  · cases h
  · split at h
    · cases h
      trivial
    · cases h

theorem makePlaceholder_ofLibrary : Maker.OfLibrary makePlaceholder := by
  intro name attrs op h
  simp only [makePlaceholder, bind_eq_ok_iff, pure_eq_ok] at h
  obtain ⟨-, -, dtype, -, shape, -, h⟩ := h
  cases h
  rfl

theorem makeTranspose_ofLibrary : Maker.OfLibrary makeTranspose := by
  intro name attrs op h
  simp only [makeTranspose, bind_eq_ok_iff] at h
  obtain ⟨-, -, h⟩ := h
  split at h
  · cases h
    trivial
  · simp only [bind_eq_ok_iff, pure_eq_ok] at h
    obtain ⟨perm, hperm, h⟩ := h
    cases h
    exact permOf_valid hperm

theorem makeConvolution_ofLibrary : Maker.OfLibrary makeConvolution := by
  intro name attrs op h
  simp only [makeConvolution, bind_eq_ok_iff] at h
  obtain ⟨-, -, h⟩ := h
  split at h
  · cases h
    trivial
  · simp only [bind_eq_ok_iff, pure_eq_ok] at h
    obtain ⟨⟨strideH, strideW⟩, -, h⟩ := h
    cases h
    trivial

/-- **What the library builds is of the library**, whatever attributes it is built from. -/
theorem Operator.build_isLibrary {name : String} {attrs : Attributes} {op : Operator}
    (h : Operator.build name attrs = .ok op) : op.IsLibrary := by
  have hall : ∀ e ∈ Registry.library.entries, Maker.OfLibrary e.2 := by
    simp only [Registry.library, List.forall_mem_cons]
    exact ⟨makeConst_ofLibrary, makePlaceholder_ofLibrary, makePlain_ofLibrary trivial,
      makePlain_ofLibrary trivial, makePlain_ofLibrary trivial, makeTranspose_ofLibrary,
      makeConvolution_ofLibrary, List.forall_mem_nil _⟩
  unfold Operator.build Registry.build at h
  split at h
  · rename_i key make hfind
    exact hall _ (List.mem_of_find?_eq_some hfind) name attrs op h
  · cases h

end EdgeFacts
