/-
# Operators look nothing up

Operators of the library read their operands and what they keep between steps, and
no tables: whatever they fail for, it is not a key that a table does not have
(`Operator.Fails.keyFree`). So where such a failure comes up, the one that looked
something up is to blame.

Key definitions: `KeyFree`, `Operator.Fails`.
Key theorems: `Operator.eval_keyFree`, `Operator.step_keyFree`, `Operator.Fails.keyFree`.
-/
import EdgeFacts.Operator.Stream
import EdgeFacts.Proofs.Value

namespace EdgeFacts

/-- Whether something does not fail for a key that a table does not have. -/
def KeyFree {α : Type} (r : Except Failure α) : Prop := r ≠ .error (.primitive .noSuchKey)

section

variable {α β : Type}

theorem keyFree_ok (a : α) : KeyFree (.ok a : Except Failure α) := fun h => nomatch h

theorem keyFree_because (c : Cause) : KeyFree (.error (.because c) : Except Failure α) := fun h => nomatch h

theorem KeyFree.bind {r : Except Failure α} {f : α → Except Failure β} (hr : KeyFree r) (hf : ∀ a, KeyFree (f a)) :
    KeyFree (r >>= f) := by
  cases r with
  | ok a => exact hf a
  | error e =>
    intro h
    cases h
    exact hr rfl

theorem KeyFree.map {r : Except Failure α} (hr : KeyFree r) (f : α → β) : KeyFree (f <$> r) := by
  cases r with
  | ok a => exact keyFree_ok (f a)
  | error e =>
    intro h
    cases h
    exact hr rfl

/-- A failure that is handed on is for no missing key if it was not before. -/
theorem KeyFree.error {r : Except Failure α} {e : Failure} (hr : KeyFree r) (h : r = .error e) :
    KeyFree (.error e : Except Failure β) := by
  intro heq
  cases heq
  exact hr h

theorem keyFree_ofKernel {r : Except KernelFault α} (h : r ≠ .error .noSuchKey) : KeyFree (ofKernel r) := by
  cases r with
  | ok a => exact keyFree_ok a
  | error fault =>
    intro heq
    cases heq
    exact h rfl

end

/-! ### What operators fail for -/

theorem Tensor.add_keyFree (a b : Tensor) : KeyFree (ofKernel (a.add b)) := by
  refine keyFree_ofKernel ?_
  unfold Tensor.add
  split <;> simp

theorem transposeTensor_keyFree (perm : Option (List AxisEntry)) (x : Tensor) : KeyFree (transposeTensor perm x) := by
  refine KeyFree.bind ?_ fun entries => ?_
  · unfold permFor
    split
    · exact keyFree_ok _
    · split
      · exact keyFree_ok _
      · exact keyFree_because _
  · split
    · exact keyFree_ok _
    · exact fun h => nomatch h

theorem convolveTensors_keyFree (sums : Contraction) (strideH strideW : Nat) (x k : Tensor) :
    KeyFree (convolveTensors sums strideH strideW x k) := by
  unfold convolveTensors
  split
  · split
    · refine keyFree_ofKernel ?_
      unfold Tensor.convolve
      split
      · split <;> simp
      · simp
    · exact keyFree_because _
  · exact keyFree_because _

namespace StreamBuffer

theorem accumulate_keyFree (s : StreamBuffer) (chunk : Tensor) (axis : Int) : KeyFree (s.accumulate chunk axis) := by
  unfold accumulate
  split
  · exact keyFree_ok _
  · refine KeyFree.bind (keyFree_ofKernel ?_) fun joined => keyFree_ok _
    unfold Tensor.concat
    split
    · simp
    · split
      · simp
      · split <;> simp

theorem consume_keyFree (s : StreamBuffer) (stride axis : Int) : KeyFree (s.consume stride axis) := by
  unfold consume
  split
  · exact keyFree_because _
  · split
    · exact fun h => nomatch h
    · dsimp only
      split
      · exact keyFree_ok _
      · split <;> exact keyFree_ok _

end StreamBuffer

theorem stepSpatial_keyFree (sums : Contraction) (strideH strideW : Nat) (chunk filter : Tensor) (axis : Nat)
    (s : StreamBuffer) : KeyFree (stepSpatial sums strideH strideW chunk filter axis s).1 := by
  unfold stepSpatial
  split
  · exact keyFree_ok _
  · split
    · rename_i h
      exact (s.accumulate_keyFree chunk axis).error h
    · split
      · exact fun h => nomatch h
      · split
        · exact fun h => nomatch h
        · split
          · exact keyFree_ok _
          · dsimp only
            split
            · rename_i h
              exact (convolveTensors_keyFree sums strideH strideW _ filter).error h
            · split
              · rename_i h
                exact (StreamBuffer.consume_keyFree _ _ _).error h
              · exact keyFree_ok _

theorem stepConvolution_keyFree (sums : Contraction) (strideH strideW : Nat) (data filter : StepInput)
    (s : StreamBuffer) : KeyFree (stepConvolution sums strideH strideW data filter s).1 := by
  unfold stepConvolution
  split
  · split
    · exact keyFree_because _
    · exact keyFree_ok _
    · exact (convolveTensors_keyFree sums strideH strideW _ _).map some
    · exact stepSpatial_keyFree sums strideH strideW _ _ 1 s
    · exact stepSpatial_keyFree sums strideH strideW _ _ 2 s
    · exact keyFree_because _
  · exact keyFree_because _

namespace Operator

/-- Evaluation looks nothing up. -/
theorem eval_keyFree {op : Operator} (hop : op.IsLibrary) (ts : List Tensor) : KeyFree (op.eval ts) := by
  unfold eval
  split
  · exact keyFree_ok _
  · exact keyFree_because _
  · exact keyFree_ok _
  · exact keyFree_ok _
  · exact transposeTensor_keyFree _ _
  · exact keyFree_because _
  · exact keyFree_because _
  · exact keyFree_because _
  · exact Tensor.add_keyFree _ _
  · exact convolveTensors_keyFree _ _ _ _ _
  · exact keyFree_because _
  · exact keyFree_because _
  · exact keyFree_because _
  · exact hop.elim

/-- Steps look nothing up. -/
theorem step_keyFree {op : Operator} (hop : op.IsLibrary) (inputs : List StepInput) (state : Option StreamBuffer) :
    KeyFree (op.step inputs state).1 := by
  unfold step
  split
  · split
    · exact stepConvolution_keyFree _ _ _ _ _ _
    · exact keyFree_because _
  · split
    · exact keyFree_ok _
    · exact (eval_keyFree hop _).map some

/-- Whether an operator fails so, when it evaluates or takes a step. -/
def Fails (op : Operator) (e : Failure) : Prop :=
  (∃ ts, op.eval ts = .error e) ∨ ∃ inputs state, (op.step inputs state).1 = .error e

/-- **No operator of the library fails for a missing key.** -/
theorem Fails.keyFree {op : Operator} (hop : op.IsLibrary) {e : Failure} (h : op.Fails e) :
    e ≠ .primitive .noSuchKey := by
  rintro rfl
  rcases h with ⟨ts, h⟩ | ⟨inputs, state, h⟩
  · exact eval_keyFree hop ts h
  · exact step_keyFree hop inputs state h

end Operator

end EdgeFacts
