/-
# The phases of a convolution on a stream

What a convolution along a spatial axis keeps between two steps is one of three
things: nothing, positions that do not cover a window yet, or a number of chunks to
skip, fewer than the stride (`StreamBuffer.Between`). Each step that succeeds leads
from one of them to one of them, whatever extents the chunks have
(`stepSpatial_between`), and so do all steps of a run (`feed_induction`). So the
phase says exactly what is kept, and the phase in which a window is convolved is
never seen from outside (`feed_phases`). Where every chunk is a single position,
what is kept is shorter than the window (`stepSpatial_short`); a longer chunk may
leave several windows behind.

Key definitions: `StreamBuffer.Between`, `StreamBuffer.ShorterThan`.
Key theorems: `stepSpatial_between`, `stepSpatial_short`, `feed_induction`, `feed_phases`.
-/
import EdgeFacts.Proofs.Cut

namespace EdgeFacts

theorem Tensor.extent_concat {a b c : Tensor} {k : Nat} (h : a.concat b k = .ok c) :
    c.extent k = a.extent k + b.extent k := by
  unfold concat at h
  split at h
  · cases h
  by_cases hk : k < a.rank
  · simp only [position?_natCast hk] at h
    split at h
    · cases h
      exact getD_set hk _
    · cases h
  · have hnone : position? a.rank (k : Int) = none := by
      unfold position?
      rw [if_pos (Int.natCast_nonneg k), if_neg (by omega)]
    simp only [hnone] at h
    cases h

namespace StreamBuffer

variable {axis stride window : Nat} {s s' : StreamBuffer} {chunk data : Tensor}

/-- What a convolution along an axis keeps between two steps: nothing, positions of
its data, or a number of chunks to skip. -/
inductive Between (axis stride : Nat) : StreamBuffer → Prop where
  | fresh : Between axis stride .fresh
  | accumulating {data : Tensor} (positions : 0 < data.extent axis) :
      Between axis stride ⟨.accumulating, some data, 0⟩
  | skipping {n : Nat} (pos : 0 < n) (lt : n < stride) : Between axis stride ⟨.skipping, none, n⟩

/-- Whether fewer positions are kept than a window has. -/
def ShorterThan (axis window : Nat) (s : StreamBuffer) : Prop := ∀ data, s.data = some data → data.extent axis < window

theorem Between.tells (h : s.Between axis stride) :
    (s.phase = .empty ↔ s.data = none ∧ s.skip = 0) ∧
    (s.phase = .accumulating ↔ (∃ data, s.data = some data ∧ 0 < data.extent axis) ∧ s.skip = 0) ∧
    (s.phase = .skipping ↔ s.data = none ∧ 0 < s.skip) ∧ s.phase ≠ .ready := by
  cases h with
  | fresh => simp [StreamBuffer.fresh]
  | accumulating positions => simp [positions]
  | skipping pos lt => simp [pos, Nat.ne_of_gt pos]

theorem Between.skip_lt (h : s.Between axis stride) (hstride : 0 < stride) : s.skip < stride := by
  cases h with
  | fresh | accumulating _ => exact hstride
  | skipping _ lt => exact lt

theorem shorterThan_fresh (axis window : Nat) : fresh.ShorterThan axis window := fun _ h => nomatch h

theorem accumulate_eq_ok (h : s.accumulate chunk axis = .ok (data, s')) :
    s' = ⟨.accumulating, some data, s.skip⟩ ∧
      data.extent axis = (s.data.elim 0 fun kept => kept.extent axis) + chunk.extent axis := by
  unfold accumulate at h
  cases hkept : s.data with
  | none =>
    simp only [hkept] at h
    cases h
    exact ⟨rfl, (Nat.zero_add _).symm⟩
  | some kept =>
    simp only [hkept, bind_eq_ok_iff, pure_eq_ok] at h
    obtain ⟨joined, hjoined, h⟩ := h
    cases h
    exact ⟨rfl, Tensor.extent_concat (ofKernel_eq_ok_iff.1 hjoined)⟩

theorem consume_between {phase : StreamPhase} (hpos : 0 < data.extent axis)
    (h : (StreamBuffer.mk phase (some data) 0).consume stride axis = .ok s') :
    s'.Between axis stride ∧ ∀ rest, s'.data = some rest → rest.extent axis = data.extent axis - stride := by
  have haxis := Tensor.lt_rank_of_extent hpos
  have hdrop : dropStart (data.extent axis) stride = stride := by simp [dropStart]
  have hrest := Tensor.extent_slice (a := stride) (Nat.le_refl (data.extent axis)) haxis
  simp only [consume, Tensor.position?_natCast haxis, hdrop, hrest] at h
  split at h
  · cases h
    refine ⟨.skipping (by omega) (by omega), fun rest hnone => ?_⟩
    cases hnone
  split at h
  · cases h
    refine ⟨.fresh, fun rest hnone => ?_⟩
    cases hnone
  · cases h
    refine ⟨.accumulating (by omega), fun rest hsome => ?_⟩
    cases hsome
    exact hrest

end StreamBuffer

open StreamBuffer (Between ShorterThan)

section

variable {sums : Contraction} {strideH strideW axis : Nat} {chunk f : Tensor} {s s' : StreamBuffer}
  {result : Option Tensor}

/-- What a step that succeeds does: it skips the chunk, waits for more, or consumes a window. -/
theorem stepSpatial_eq_ok (h : stepSpatial sums strideH strideW chunk f axis s = (.ok result, s')) :
    (0 < s.skip ∧ s' = s.pass) ∨
    (s.skip = 0 ∧ ∃ data,
      data.extent axis = (s.data.elim 0 fun kept => kept.extent axis) + chunk.extent axis ∧
      ((data.extent axis < f.extent (axis - 1) ∧ s' = ⟨.accumulating, some data, 0⟩) ∨
        (f.extent (axis - 1) ≤ data.extent axis ∧ (∃ z, convolveTensors sums strideH strideW data f = .ok z) ∧
          (StreamBuffer.mk .ready (some data) 0).consume (spatialStride strideH strideW axis) axis = .ok s'))) := by
  unfold stepSpatial at h
  by_cases hskip : 0 < s.skip
  · rw [if_pos hskip] at h
    cases h
    exact .inl ⟨hskip, rfl⟩
  have hzero : s.skip = 0 := by omega
  rw [if_neg hskip] at h
  cases hacc : s.accumulate chunk axis with
  | error e =>
    simp only [hacc] at h
    cases h
  | ok r =>
    obtain ⟨data, joined⟩ := r
    obtain ⟨rfl, hext⟩ := StreamBuffer.accumulate_eq_ok hacc
    refine .inr ⟨hzero, data, hext, ?_⟩
    have hstride : ((if axis = 1 then (strideH : Int) else strideW) : Int) = spatialStride strideH strideW axis := by
      rw [spatialStride]
      split <;> rfl
    simp only [hacc, hzero, hstride] at h
    split at h
    · cases h
    split at h
    · cases h
    split at h
    · rename_i hwait
      cases h
      exact .inl ⟨hwait, rfl⟩
    · rename_i hfull
      refine .inr ⟨Nat.le_of_not_lt hfull, ?_⟩
      split at h
      · cases h
      rename_i z hz
      split at h
      · cases h
      rename_i hconsume
      cases h
      exact ⟨⟨z, hz⟩, hconsume⟩

/-- **A step that succeeds leads from one of the three phases to one of them.** -/
theorem stepSpatial_between (hchunk : 0 < chunk.extent axis)
    (hs : s.Between axis (spatialStride strideH strideW axis))
    (h : stepSpatial sums strideH strideW chunk f axis s = (.ok result, s')) :
    s'.Between axis (spatialStride strideH strideW axis) := by
  rcases stepSpatial_eq_ok h with ⟨hskip, rfl⟩ | ⟨-, data, hext, ⟨-, rfl⟩ | ⟨-, -, hconsume⟩⟩
  · rcases hs with _ | _ | @⟨n, hpos, hlt⟩
    · cases hskip
    · cases hskip
    · rw [StreamBuffer.pass]
      by_cases hlast : n = 1
      · subst hlast
        exact .fresh
      · simp only [if_neg hlast]
        exact .skipping (by omega) (by omega)
  · exact .accumulating (by omega)
  · exact (StreamBuffer.consume_between (by omega) hconsume).1

theorem stepSpatial_short (hax : axis = 1 ∨ axis = 2) (hwindow : 0 < f.extent (axis - 1))
    (hchunk : chunk.extent axis = 1) (hs : s.ShorterThan axis (f.extent (axis - 1)))
    (h : stepSpatial sums strideH strideW chunk f axis s = (.ok result, s')) :
    s'.ShorterThan axis (f.extent (axis - 1)) := by
  rcases stepSpatial_eq_ok h with ⟨-, rfl⟩ | ⟨-, data, hext, ⟨hwait, rfl⟩ | ⟨-, ⟨z, hz⟩, hconsume⟩⟩
  · exact hs
  · rintro _ ⟨⟩
    exact hwait
  · intro rest hrest
    have hle : (s.data.elim 0 fun kept => kept.extent axis) < f.extent (axis - 1) := by
      cases hkept : s.data with
      | none => exact hwindow
      | some kept => exact hs kept hkept
    have hstride := (convolveTensors_spatial hz hax).2.2.2.1
    have hleft := (StreamBuffer.consume_between (by omega) hconsume).2 rest hrest
    omega

end

/-! ### Runs -/

variable {sums : Contraction} {strideH strideW axis : Nat} {f : Tensor}

/-- What every step on a chunk that is there keeps is kept by a run in which no step fails. -/
theorem feed_induction (hax : axis = 1 ∨ axis = 2) {P : StreamBuffer → Prop} :
    ∀ {chunks : List (Option Tensor)} {s : StreamBuffer} {results : List Tensor} {state : Option StreamBuffer},
    (∀ chunk, some chunk ∈ chunks → ∀ s result s', P s →
      stepSpatial sums strideH strideW chunk f axis s = (.ok result, s') → P s') → P s →
    feed (.convolution sums strideH strideW) axis f chunks (some s) = (.ok results, state) →
    ∃ s', state = some s' ∧ P s'
  | [], s, _, _, _, hs, h => by
    cases h
    exact ⟨s, rfl, hs⟩
  | none :: chunks, s, results, state, hstep, hs, h => by
    rw [feed, Operator.step_missing] at h
    obtain ⟨hrest, rfl⟩ := Prod.mk.inj h
    obtain ⟨rest, hrest, -⟩ := map_eq_ok_iff.1 hrest
    exact feed_induction hax (fun c hc => hstep c (.tail _ hc)) hs (Prod.ext hrest rfl)
  | some chunk :: chunks, s, results, state, hstep, hs, h => by
    rw [feed, Operator.step_spatial hax] at h
    rcases hmoved : stepSpatial sums strideH strideW chunk f axis s with ⟨e | result, s'⟩
    · rw [hmoved] at h
      cases h
    · rw [hmoved] at h
      obtain ⟨hrest, rfl⟩ := Prod.mk.inj h
      obtain ⟨rest, hrest, -⟩ := map_eq_ok_iff.1 hrest
      exact feed_induction hax (fun c hc => hstep c (.tail _ hc)) (hstep chunk (.head _) s result s' hs hmoved)
        (Prod.ext hrest rfl)

/-- **Phase and data stay in step.** After any chunks along a spatial axis on which no step
failed, some of them missing and the others of any extents, the phase tells exactly what is
kept: nothing, some positions, or chunks to skip, of which there are fewer than the stride
(which is positive in every operator that is built). The phase of a window that is being
convolved is not seen. If every chunk is a single position, fewer positions are kept than
the filter has. -/
theorem feed_phases (hax : axis = 1 ∨ axis = 2) (hwindow : 0 < f.extent (axis - 1)) {chunks : List (Option Tensor)}
    (hchunks : ∀ chunk, some chunk ∈ chunks → 0 < chunk.extent axis) {results : List Tensor}
    {state : Option StreamBuffer}
    (h : feed (.convolution sums strideH strideW) axis f chunks (Operator.convolution sums strideH strideW).newState =
      (.ok results, state)) :
    ∃ s, state = some s ∧
      (s.phase = .empty ↔ s.data = none ∧ s.skip = 0) ∧
      (s.phase = .accumulating ↔ (∃ data, s.data = some data ∧ 0 < data.extent axis) ∧ s.skip = 0) ∧
      (s.phase = .skipping ↔ s.data = none ∧ 0 < s.skip) ∧
      s.phase ≠ .ready ∧
      (0 < spatialStride strideH strideW axis → s.skip < spatialStride strideH strideW axis) ∧
      ((∀ chunk, some chunk ∈ chunks → chunk.extent axis = 1) →
        ∀ data, s.data = some data → data.extent axis < f.extent (axis - 1)) := by
  obtain ⟨s, rfl, hbetween⟩ := feed_induction hax (P := Between axis (spatialStride strideH strideW axis))
    (fun chunk hc s result s' hs hstep => stepSpatial_between (hchunks chunk hc) hs hstep) .fresh h
  refine ⟨s, rfl, hbetween.tells.1, hbetween.tells.2.1, hbetween.tells.2.2.1, hbetween.tells.2.2.2,
    hbetween.skip_lt, fun hunits => ?_⟩
  obtain ⟨_, heq, hshort⟩ := feed_induction hax (P := ShorterThan axis (f.extent (axis - 1)))
    (fun chunk hc s result s' hs hstep => stepSpatial_short hax hwindow (hunits chunk hc) hs hstep)
    (StreamBuffer.shorterThan_fresh _ _) h
  cases heq
  exact hshort

/-- After two integers, a pair of which is convolved with stride 3, one chunk is to be skipped. -/
theorem column_phases : ∃ s, feed (.convolution .sequential 3 1) 1 pairFilter
      [some (column [1]), none, some (column [2])] (some .fresh) = (.ok [column [3]], some s) ∧
    s.data = none ∧ 0 < s.skip ∧ s.skip < 3 := by
  have hfed : feed (.convolution .sequential 3 1) 1 pairFilter [some (column [1]), none, some (column [2])]
      (some .fresh) = (.ok [column [3]], some ⟨.skipping, none, 1⟩) := rfl
  have hchunks : ∀ chunk, some chunk ∈ [some (column [1]), none, some (column [2])] → 0 < chunk.extent 1 := by
    intro chunk hchunk
    simp only [List.mem_cons, Option.some.injEq, reduceCtorEq, List.not_mem_nil, or_false, false_or] at hchunk
    rcases hchunk with rfl | rfl <;> decide
  obtain ⟨s, hs, -, -, hskipping, -, hlt, -⟩ := feed_phases (.inl rfl) (by decide) hchunks hfed
  cases hs
  obtain ⟨hnone, hpos⟩ := hskipping.1 rfl
  exact ⟨_, hfed, hnone, hpos, hlt (by decide)⟩

end EdgeFacts
