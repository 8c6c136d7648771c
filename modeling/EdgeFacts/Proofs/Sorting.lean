/-
# Sorting whole numbers

Whole numbers are always in order with each other, so sorting them succeeds and puts
them in order (`Literal.sort_int`): the run at the front is in order, falling runs
after they are turned round, and each later number is put where the numbers before it
are not above it and those after it are. So a transposition is built from a list of
whole numbers exactly if these are all axes of some rank in some order
(`Operator.build_transpose_iff`).

Key definitions: `IsPermutation`, `axisEntries`, `transposeAttributes`.
Key theorems: `Literal.insertPosition_int`, `Literal.sort_int`, `permOf_eq_ok_iff`,
`Operator.build_transpose_iff`.
-/
import Mathlib.Data.List.Perm.Basic
import Mathlib.Data.List.Sort
import EdgeFacts.Proofs.Build

namespace EdgeFacts

namespace Literal

theorem less_int (a b : Int) : less (.int a) (.int b) = .ok (decide (a < b)) := by
  simp only [less, number?, lessNumber, FloatDatum.value]
  norm_cast

/-! ### The run at the front -/

/-- Whether each number goes on with a run, falling or not. -/
def Runs (falling : Bool) : List Int → Prop := List.IsChain fun a b => decide (b < a) = falling

theorem runLength_int (falling : Bool) : ∀ (last : Int) (rest : List Int),
    ∃ n, runLength falling (.int last) (rest.map .int) = .ok n ∧ Runs falling (last :: rest.take n)
  | last, [] => ⟨0, rfl, .singleton _⟩
  | last, x :: rest => by
    obtain ⟨n, hn, hruns⟩ := runLength_int falling x rest
    by_cases hx : decide (x < last) = falling
    · refine ⟨n + 1, ?_, .cons_cons hx hruns⟩
      simp only [List.map_cons, runLength, less_int, ok_bind, hn, if_pos hx]
      rfl
    · refine ⟨0, ?_, .singleton _⟩
      simp only [List.map_cons, runLength, less_int, ok_bind, if_neg hx]
      rfl

/-- A run is in order, and a falling one is when it is turned round. -/
theorem Runs.sorted {falling : Bool} {ns : List Int} (h : Runs falling ns) :
    (if falling then ns.reverse else ns).Pairwise (· ≤ ·) := by
  cases falling with
  | false =>
    have hle : ns.IsChain (· ≤ ·) := h.imp fun a b hab => by simpa using hab
    exact hle.pairwise
  | true =>
    have hge : ns.IsChain (· ≥ ·) := h.imp fun a b hab => Int.le_of_lt (by simpa using hab)
    exact List.pairwise_reverse.2 hge.pairwise

theorem splitRun_int : ∀ ns : List Int, ∃ run rest : List Int,
    splitRun (ns.map .int) = .ok (run.map .int, rest.map .int) ∧ run.Pairwise (· ≤ ·)
  | [] => ⟨[], [], rfl, .nil⟩
  | [n] => ⟨[n], [], rfl, List.pairwise_singleton _ _⟩
  | a :: b :: ns => by
    obtain ⟨n, hn, hruns⟩ := runLength_int (decide (b < a)) b ns
    have hall : Runs (decide (b < a)) ((a :: b :: ns).take (n + 2)) := .cons_cons rfl hruns
    refine ⟨_, (a :: b :: ns).drop (n + 2), ?_, hall.sorted⟩
    simp only [List.map_cons, splitRun, less_int, ok_bind, hn, pure_eq_ok]
    congr 2
    · split <;> simp
    · simp

/-! ### Insertion -/

/-- The place of a number among sorted ones: the ones before it are not above it, and
it is not above those from there on. -/
theorem insertPosition_int {ns : List Int} {x : Int} (hsorted : ns.Pairwise (· ≤ ·)) :
    ∀ {fuel low high : Nat}, low ≤ high → high ≤ ns.length → high - low < fuel →
      (∀ y ∈ ns.take low, y ≤ x) → (∀ y ∈ ns.drop high, x ≤ y) →
      ∃ p, insertPosition (ns.map .int).toArray (.int x) fuel low high = .ok p ∧
        (∀ y ∈ ns.take p, y ≤ x) ∧ ∀ y ∈ ns.drop p, x ≤ y
  | 0, low, high, _, _, hfuel, _, _ => by omega
  | fuel + 1, low, high, hle, hlen, hfuel, hlow, hhigh => by
    unfold insertPosition
    by_cases hdone : high ≤ low
    · have heq : high = low := by omega
      subst heq
      exact ⟨high, by rw [if_pos hdone]; rfl, hlow, hhigh⟩
    · have hmid : low + (high - low) / 2 < ns.length := by omega
      have hget : (ns.map Literal.int).toArray.getD (low + (high - low) / 2) .none =
          .int ns[low + (high - low) / 2] := by simp [hmid]
      simp only [if_neg hdone, hget, less_int, ok_bind]
      by_cases hx : x < ns[low + (high - low) / 2]
      · simp only [hx, decide_true, if_true]
        refine insertPosition_int hsorted (by omega) (by omega) (by omega) hlow fun y hy => ?_
        -- from the middle on the numbers are at least the one in the middle
        rw [List.drop_eq_getElem_cons hmid] at hy
        have hfrom : (ns[low + (high - low) / 2] :: ns.drop (low + (high - low) / 2 + 1)).Pairwise (· ≤ ·) := by
          rw [← List.drop_eq_getElem_cons hmid]
          exact hsorted.drop
        rcases List.mem_cons.1 hy with rfl | hy
        · exact Int.le_of_lt hx
        · exact Int.le_trans (Int.le_of_lt hx) (List.rel_of_pairwise_cons hfrom hy)
      · simp only [hx, decide_false, Bool.false_eq_true, if_false]
        refine insertPosition_int hsorted (by omega) (by omega) (by omega) (fun y hy => ?_) hhigh
        -- up to the middle the numbers are at most the one in the middle
        rw [← List.take_append_getElem hmid, List.mem_append, List.mem_singleton] at hy
        have hupto : (ns.take (low + (high - low) / 2) ++ [ns[low + (high - low) / 2]]).Pairwise (· ≤ ·) := by
          rw [List.take_append_getElem hmid]
          exact hsorted.take
        rcases hy with hy | rfl
        · have hle : y ≤ ns[low + (high - low) / 2] :=
            (List.pairwise_append.1 hupto).2.2 y hy _ (List.mem_singleton_self _)
          omega
        · omega

theorem insertSorted_int {ns : List Int} (x : Int) (hsorted : ns.Pairwise (· ≤ ·)) :
    ∃ ms : List Int, insertSorted (ns.map .int) (.int x) = .ok (ms.map .int) ∧ ms.Pairwise (· ≤ ·) := by
  have hfuel : ns.length - 0 < ns.length + 1 := by omega
  obtain ⟨p, hp, hbefore, hfrom⟩ := insertPosition_int (x := x) hsorted (Nat.zero_le ns.length) (Nat.le_refl _)
    hfuel (by simp) (by simp)
  refine ⟨ns.take p ++ x :: ns.drop p, ?_, ?_⟩
  · simp only [insertSorted, List.length_map, hp, ok_bind, pure_eq_ok, List.map_append, List.map_cons,
      List.map_take, List.map_drop]
  · refine List.pairwise_append.2 ⟨hsorted.take, List.pairwise_cons.2 ⟨hfrom, hsorted.drop⟩, ?_⟩
    intro a ha b hb
    rcases List.mem_cons.1 hb with rfl | hb
    · exact hbefore a ha
    · exact Int.le_trans (hbefore a ha) (hfrom b hb)

theorem foldlM_insertSorted_int : ∀ (rest : List Int) {run : List Int}, run.Pairwise (· ≤ ·) →
    ∃ ms : List Int, (rest.map Literal.int).foldlM insertSorted (run.map .int) = .ok (ms.map .int) ∧ ms.Pairwise (· ≤ ·)
  | [], run, hrun => ⟨run, rfl, hrun⟩
  | x :: rest, run, hrun => by
    obtain ⟨ms, hms, hsorted⟩ := insertSorted_int x hrun
    obtain ⟨ms', hms', hsorted'⟩ := foldlM_insertSorted_int rest hsorted
    refine ⟨ms', ?_, hsorted'⟩
    rw [List.map_cons, List.foldlM_cons, hms, ok_bind, hms']

/-- **Whole numbers can be sorted**, and are in order then. -/
theorem sort_int (ns : List Int) :
    ∃ ms : List Int, sort (ns.map .int) = .ok (ms.map .int) ∧ ms.Perm ns ∧ ms.Pairwise (· ≤ ·) := by
  obtain ⟨run, rest, hsplit, hrun⟩ := splitRun_int ns
  obtain ⟨ms, hms, hsorted⟩ := foldlM_insertSorted_int rest hrun
  have hsort : sort (ns.map .int) = .ok (ms.map .int) := by
    rw [sort, hsplit, ok_bind]
    exact hms
  have hinj : Function.Injective Literal.int := fun a b hab => Literal.int.inj hab
  exact ⟨ms, hsort, (List.map_perm_map_iff hinj).1 (sort_perm hsort), hsorted⟩

end Literal

/-! ### Permutations -/

/-- The numbers from 0 on, as many as given. -/
def axisNumbers (rank : Nat) : List Int := (List.range rank).map Nat.cast

/-- Whether numbers are all axes of some rank in some order. -/
def IsPermutation (ns : List Int) : Prop := ns.Perm (axisNumbers ns.length)

instance (ns : List Int) : Decidable (IsPermutation ns) :=
  inferInstanceAs (Decidable (ns.Perm _))

theorem sorted_axisNumbers (rank : Nat) : (axisNumbers rank).Pairwise (· ≤ ·) := by
  refine List.Pairwise.map _ (fun a b hab => ?_) List.pairwise_lt_range
  exact_mod_cast Nat.le_of_lt hab

theorem sameItems_int_iff {ns ms : List Int} : Literal.sameItems (ns.map .int) (ms.map .int) = true ↔ ns = ms := by
  rw [Literal.sameItems_iff, List.forall₂_map_left_iff, List.forall₂_map_right_iff, ← List.forall₂_eq_eq_eq]
  have hsame : ∀ a b : Int,
      ((Literal.int a).isNan && (Literal.int b).isNan || (Literal.int a).same (.int b)) = true ↔ a = b := by
    intro a b
    simp [Literal.isNan, Literal.same, Literal.number?, Literal.sameNumber, FloatDatum.same, FloatDatum.value]
  simp only [hsame]

/-- **A list of whole numbers gives a permutation** exactly if these are all axes in some order. -/
theorem permOf_eq_ok_iff {name : String} {ns : List Int} {perm : List AxisEntry} :
    permOf name (.list (ns.map .int)) = .ok perm ↔ IsPermutation ns ∧ perm = (ns.map Int.toNat).map .whole := by
  obtain ⟨ms, hsort, hperm, hsorted⟩ := Literal.sort_int ns
  have hnumbers : ((List.range (ns.map Literal.int).length).map fun (n : Nat) => Literal.int n) =
      (axisNumbers ns.length).map .int := by
    rw [List.length_map, axisNumbers, List.map_map]
    rfl
  have hvalid : Literal.sameItems (ms.map .int) ((axisNumbers ns.length).map .int) = true ↔ IsPermutation ns := by
    rw [sameItems_int_iff]
    constructor
    · rintro rfl
      exact hperm.symm
    · intro h
      exact (hperm.trans h).eq_of_pairwise' hsorted (sorted_axisNumbers _)
  have hentries : (ns.map Literal.int).mapM AxisEntry.ofLiteral? = some ((ns.map Int.toNat).map .whole) := by
    rw [mapM_eq_some_iff, List.forall₂_map_left_iff, List.map_map, List.forall₂_map_right_iff]
    exact List.forall₂_same.2 fun _ _ => rfl
  simp only [permOf, Literal.items?, hsort, hnumbers, hentries]
  by_cases h : IsPermutation ns
  · rw [if_pos (hvalid.2 h)]
    simp [h, eq_comm]
  · rw [if_neg fun hsame => h (hvalid.1 hsame)]
    simp [h]

/-- A permutation as an operator has it. -/
def axisEntries (perm : Option (List Int)) : Option (List AxisEntry) :=
  perm.map fun ns => (ns.map Int.toNat).map .whole

/-- The attributes that give a transposition its permutation, if there is one. -/
def transposeAttributes (perm : Option (List Int)) : Attributes :=
  (perm.map fun ns => ("perm", Literal.list (ns.map .int))).toList

/-- **Which transpositions there are**: the reversal, and one for each order of the axes. -/
theorem Operator.build_transpose_iff {perm : Option (List Int)} {op : Operator} :
    Operator.build "Transpose" (transposeAttributes perm) = .ok op ↔
      (∀ ns, perm = some ns → IsPermutation ns) ∧
        op = .transpose (axisEntries perm) := by
  cases perm with
  | none =>
    have hbuild : Operator.build "Transpose" (transposeAttributes none) = .ok (.transpose none) := rfl
    simp [hbuild, axisEntries, eq_comm]
  | some ns =>
    have hbuild : Operator.build "Transpose" (transposeAttributes (some ns)) =
        (permOf "Transpose" (.list (ns.map .int)) >>= fun p => pure (.transpose (some p))) := rfl
    simp only [hbuild, bind_eq_ok_iff, permOf_eq_ok_iff, pure_eq_ok, Except.ok.injEq, Option.some.injEq,
      forall_eq', axisEntries, Option.map_some]
    constructor
    · rintro ⟨_, ⟨h, rfl⟩, rfl⟩
      exact ⟨h, rfl⟩
    · rintro ⟨h, rfl⟩
      exact ⟨_, ⟨h, rfl⟩, rfl⟩

/-- An axis that is given twice leaves out another one. -/
example : ¬ IsPermutation [0, 0] := by decide

end EdgeFacts
