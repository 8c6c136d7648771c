/-
# Operators on streams keep pace

An operator of the library that gets one of its inputs chunk by chunk delivers its
output chunk by chunk: after some chunks of the input the chunks of the output so
far are the first ones of the whole output (`Pace`). Most operators deliver a
chunk for a chunk. A convolution along a spatial axis delivers one whenever the
chunks since the start of the next window cover the window (`windowsIn`); what it
keeps is a function of the number of chunks so far (`StreamBuffer.after`).

Key definitions: `Port`, `Advances`, `Pace`, `windowsIn`, `StreamBuffer.after`,
`Operator.SumsUniformly`, `Operator.Delivers`.
Key theorems: `Pace.chunkwise`, `Pace.spatial`, `Operator.delivers`.
-/
import EdgeFacts.Operator.Stream
import EdgeFacts.Proofs.StreamShape

namespace EdgeFacts

open ShapeFact (along)

/-- The chunk that a stream of the unit slices of a tensor brings between two
numbers of chunks, the second the same or the next. -/
def Tensor.chunk? (t : Tensor) (k r r' : Nat) : Option Tensor :=
  if r < r' then some (t.slice k r r') else none

/-! ### Inputs -/

/-- What flows into a node at one of its inputs: a tensor, and the axis along
which it is streamed, if it is. -/
structure Port where
  tensor : Tensor
  axis : Option Nat

namespace Port

/-- A slice of a streamed tensor; a whole tensor is always there. -/
def slice (p : Port) (a b : Nat) : Tensor :=
  match p.axis with
  | none => p.tensor
  | some k => p.tensor.slice k a b

/-- What a step sees when the number of chunks grows from `r` to `r'`. -/
def seen (p : Port) (r r' : Nat) : StepInput :=
  match p.axis with
  | none => ⟨none, some p.tensor⟩
  | some k => ⟨some k, p.tensor.chunk? k r r'⟩

/-- Whether a fact tells the shape of what flows into the port. -/
structure Known (p : Port) (f : TensorFact) : Prop where
  shape : f.shape = along p.tensor.shape p.axis
  axis_lt : ∀ k, p.axis = some k → k < p.tensor.rank

theorem slice_of_whole {p : Port} (h : p.axis = none) (a b : Nat) : p.slice a b = p.tensor := by
  rw [slice, h]

theorem seen_of_whole {p : Port} (h : p.axis = none) (r r' : Nat) : p.seen r r' = ⟨none, some p.tensor⟩ := by
  rw [seen, h]

theorem chunk_seen (p : Port) (r : Nat) : (p.seen r (r + 1)).chunk = some (p.slice r (r + 1)) := by
  unfold seen slice Tensor.chunk?
  cases p.axis with
  | none => rfl
  | some k => exact if_pos (Nat.lt_succ_self r)

theorem chunk_seen_self {p : Port} {k : Nat} (h : p.axis = some k) (r : Nat) : (p.seen r r).chunk = none := by
  rw [seen, h]
  exact if_neg (Nat.lt_irrefl r)

end Port

/-! ### Paces -/

/-- Whether a count starts at 0 and grows by 1 at most at a time. -/
structure Advances (f : Nat → Nat) : Prop where
  zero : f 0 = 0
  succ : ∀ m, f (m + 1) = f m ∨ f (m + 1) = f m + 1

namespace Advances

theorem id : Advances id := ⟨rfl, fun _ => .inr rfl⟩

theorem comp {f g : Nat → Nat} (hf : Advances f) (hg : Advances g) : Advances (f ∘ g) where
  zero := by rw [Function.comp_apply, hg.zero, hf.zero]
  succ m := by
    rw [Function.comp_apply, Function.comp_apply]
    rcases hg.succ m with h | h
    · exact .inl (congrArg f h)
    · rw [h]
      exact hf.succ (g m)

end Advances

/-- Whether an operator turns the first `length` chunks of the streamed tensors
among its inputs into those of its output `z` along an axis: after `r` of them it
has delivered the first `rate r` chunks and keeps `state r`, and these chunks are
what it computes from the first `r` chunks, if that is anything. -/
structure Pace (op : Operator) (ports : List Port) (z : Tensor) (k length : Nat) (rate : Nat → Nat)
    (state : Nat → Option StreamBuffer) : Prop where
  state_zero : state 0 = op.newState
  advances : Advances rate
  rate_le : ∀ r ≤ length, rate r ≤ z.extent k
  step : ∀ r r', r' = r ∨ r' = r + 1 → r' ≤ length →
    op.step (ports.map (·.seen r r')) (state r) = (.ok (z.chunk? k (rate r) (rate r')), state r')
  front : ∀ r, 0 < r → r ≤ length → ∀ t,
    op.eval (ports.map (·.slice 0 r)) = .ok t ↔ 0 < rate r ∧ t = z.slice k 0 (rate r)

theorem Operator.step_none (op : Operator) (inputs : List StepInput) :
    op.step inputs none = match inputs.mapM StepInput.chunk with
      | none => (.ok none, none)
      | some chunks => (some <$> op.eval chunks, none) := by
  cases op <;> rfl

theorem mapM_chunk_eq_none {inputs : List StepInput} {y : StepInput} (hy : y ∈ inputs) (hnone : y.chunk = none) :
    inputs.mapM StepInput.chunk = none := by
  rw [Option.eq_none_iff_forall_ne_some]
  intro chunks h
  obtain ⟨c, -, hc⟩ := exists_of_forall₂ (mapM_eq_some_iff.1 h).flip y hy
  rw [hnone] at hc
  cases hc

/-- **A chunk for a chunk**: an operator that computes slices from slices keeps nothing. -/
theorem Pace.chunkwise {op : Operator} {ports : List Port} {z : Tensor} {k' length : Nat}
    (hop : op.newState = none) {p : Port} (hp : p ∈ ports) {k : Nat} (hk : p.axis = some k)
    (hext : z.extent k' = length)
    (hslice : ∀ a b, b ≤ length → op.eval (ports.map (·.slice a b)) = .ok (z.slice k' a b)) :
    Pace op ports z k' length id fun _ => none where
  state_zero := hop.symm
  advances := .id
  rate_le r hr := Nat.le_trans hr (Nat.le_of_eq hext.symm)
  step r r' hr hlen := by
    rw [Operator.step_none]
    rcases hr with rfl | rfl
    · have hnone : (ports.map (·.seen r' r')).mapM StepInput.chunk = none :=
        mapM_chunk_eq_none (List.mem_map_of_mem hp) (Port.chunk_seen_self hk r')
      rw [hnone]
      exact Prod.ext (congrArg Except.ok (if_neg (Nat.lt_irrefl _)).symm) rfl
    · have hall : (ports.map (·.seen r (r + 1))).mapM StepInput.chunk =
          some (ports.map (·.slice r (r + 1))) := by
        rw [mapM_eq_some_iff, List.forall₂_map_left_iff, List.forall₂_map_right_iff, List.forall₂_same]
        exact fun q _ => q.chunk_seen r
      rw [hall]
      simp only [hslice r (r + 1) hlen]
      exact Prod.ext (congrArg Except.ok (if_pos (Nat.lt_succ_self r)).symm) rfl
  front r hpos hr t := by
    rw [hslice 0 r hr, Except.ok.injEq]
    exact ⟨fun h => ⟨hpos, h.symm⟩, fun h => h.2.symm⟩

/-! ### Windows -/

/-- The number of windows, `stride` apart, among the first `r` positions. -/
def windowsIn (window stride r : Nat) : Nat :=
  if r < window then 0 else Tensor.windowCount r window stride

section

variable {window stride r : Nat} (hs : 0 < stride)
include hs

theorem windowsIn_eq {c : Nat} (hlow : ∀ q, c = q + 1 → q * stride + window ≤ r)
    (hhigh : r < c * stride + window) : windowsIn window stride r = c := by
  unfold windowsIn
  cases c with
  | zero =>
    rw [Nat.zero_mul, Nat.zero_add] at hhigh
    exact if_pos hhigh
  | succ q =>
    have hq := hlow q rfl
    rw [if_neg (by omega)]
    exact (Tensor.windowCount_eq_iff hs (by omega)).2 ⟨hq, hhigh⟩

variable (window r)

/-- The windows so far have begun, and the next one is not complete. -/
theorem windowsIn_spec : (∀ q, windowsIn window stride r = q + 1 → q * stride + window ≤ r) ∧
    r < windowsIn window stride r * stride + window := by
  unfold windowsIn
  split
  · rename_i hr
    exact ⟨fun q hq => (nomatch hq), by omega⟩
  · rename_i hr
    obtain ⟨hlow, hhigh⟩ := (Tensor.windowCount_eq_iff hs (Nat.le_of_not_lt hr)).1 rfl
    refine ⟨fun q hq => ?_, hhigh⟩
    rwa [← Nat.succ.inj hq]

theorem windowsIn_succ : windowsIn window stride (r + 1) =
    if r + 1 = windowsIn window stride r * stride + window then windowsIn window stride r + 1
    else windowsIn window stride r := by
  obtain ⟨hlow, hhigh⟩ := windowsIn_spec window r hs
  split
  · rename_i hr
    refine windowsIn_eq hs (fun q hq => ?_) ?_
    · rw [← Nat.succ_inj.1 hq]
      exact Nat.le_of_eq hr.symm
    · rw [Nat.succ_mul]
      omega
  · exact windowsIn_eq hs (fun q hq => Nat.le_succ_of_le (hlow q hq)) (by omega)

end

theorem windowsIn_mono {r stop : Nat} (window stride : Nat) (h : r ≤ stop) :
    windowsIn window stride r ≤ windowsIn window stride stop := by
  unfold windowsIn
  split
  · exact Nat.zero_le _
  · rw [if_neg (by omega)]
    exact Tensor.windowCount_mono h

theorem windowsIn_succ_le {window stride : Nat} (r : Nat) (hs : 0 < stride) :
    windowsIn window stride (r + 1) ≤ windowsIn window stride r + 1 := by
  rw [windowsIn_succ window r hs]
  split
  · exact Nat.le_refl _
  · exact Nat.le_succ _

/-! ### Convolutions along a spatial axis -/

/-- What a convolution along axis `k` keeps of the first `r` chunks, the next window
of which begins at position `start`. -/
def StreamBuffer.after (x : Tensor) (k start r : Nat) : StreamBuffer :=
  if r < start then ⟨.skipping, none, start - r⟩
  else if r = start then .fresh
  else ⟨.accumulating, some (x.slice k start r), 0⟩

namespace StreamBuffer

variable {x : Tensor} {k start r : Nat}

/-- A chunk before the next window is skipped as if it had extent 1: what more it has
counts as if the window began later. -/
theorem pass_after (n : Nat) (h : r < start) : 0 < (after x k start r).skip ∧
    (after x k start r).pass = after x k (start + n) (r + 1 + n) := by
  unfold after
  rw [if_pos h]
  refine ⟨Nat.sub_pos_of_lt h, ?_⟩
  by_cases hnext : r + 1 = start
  · rw [if_neg (by omega), if_pos (by omega), pass]
    have hskip : start - r = 1 := by omega
    simp [hskip, fresh]
  · rw [if_pos (by omega), pass]
    have hskip : start - r ≠ 1 := by omega
    have hrest : start - r - 1 = start + n - (r + 1 + n) := by omega
    simp [hskip, hrest]

/-- A chunk within the next window is joined to those before it. -/
theorem accumulate_after {stop : Nat} (h : start ≤ r) (hr : r ≤ stop) (hstop : stop ≤ x.extent k)
    (hk : k < x.rank) :
    (after x k start r).skip = 0 ∧ (after x k start r).accumulate (x.slice k r stop) k =
      .ok (x.slice k start stop, ⟨.accumulating, some (x.slice k start stop), 0⟩) := by
  unfold after
  rw [if_neg (Nat.not_lt.2 h)]
  by_cases heq : r = start
  · subst heq
    rw [if_pos rfl]
    exact ⟨rfl, rfl⟩
  · rw [if_neg heq]
    refine ⟨rfl, ?_⟩
    simp only [accumulate, Tensor.concat_slice h hr hstop hk, ofKernel, bind, Except.bind]
    rfl

/-- After a window the positions up to the next one are dropped, or skipped. -/
theorem consume_after {stop : Nat} (stride : Nat) (h : start ≤ stop) (hstop : stop ≤ x.extent k) (hk : k < x.rank)
    (phase : StreamPhase) : (StreamBuffer.mk phase (some (x.slice k start stop)) 0).consume stride k =
      .ok (after x k (start + stride) stop) := by
  have hext := Tensor.extent_slice (a := start) hstop hk
  have hrank : (x.slice k start stop).rank = x.rank := List.length_set
  have hposition : position? (x.slice k start stop).rank (k : Int) = some k :=
    Tensor.position?_natCast (hrank ▸ hk)
  have hdrop : dropStart (stop - start) stride = stride := by simp [dropStart]
  have hrest : (x.slice k start stop).slice k stride (stop - start) = x.slice k (start + stride) stop := by
    rw [Tensor.slice_slice h hstop hk (Nat.le_refl _), Nat.add_sub_cancel' h]
  simp only [consume, hposition, hext, hdrop, hrest, Tensor.extent_slice hstop hk]
  unfold after
  by_cases hskip : stop < start + stride
  · have hlt : ((stop - start : Nat) : Int) < stride := by omega
    rw [if_pos hlt, if_pos hskip]
    refine congrArg (fun n => Except.ok (StreamBuffer.mk .skipping none n)) ?_
    omega
  · have hlt : ¬ ((stop - start : Nat) : Int) < stride := by omega
    rw [if_neg hlt, if_neg hskip]
    by_cases heq : stop = start + stride
    · rw [if_pos (by omega), if_pos heq]
      rfl
    · rw [if_neg (by omega), if_neg heq]

end StreamBuffer

section

variable {sums : Contraction} {strideH strideW : Nat} {x f z : Tensor}
  (h : convolveTensors sums strideH strideW x f = .ok z)
include h

/-- What there is to a convolution that succeeds, along a spatial axis. -/
theorem convolveTensors_spatial {axis : Nat} (hax : axis = 1 ∨ axis = 2) : axis < x.rank ∧ axis ≤ f.rank ∧
    axis < z.rank ∧ 0 < spatialStride strideH strideW axis ∧ f.extent (axis - 1) ≤ x.extent axis ∧
      z.extent axis =
        Tensor.windowCount (x.extent axis) (f.extent (axis - 1)) (spatialStride strideH strideW axis) := by
  obtain ⟨n, hx, wx, c, kh, kw, o, hxs, hfs, hkh, hkw, hsh, hsw, rfl⟩ := convolveTensors_eq_ok_iff.1 h
  have hz {e : ElemType} {s : List Nat} {g : List Nat → Scalar} : (Tensor.ofFn e s g).shape = s := rfl
  rcases hax with rfl | rfl <;>
    simp [Tensor.rank, Tensor.extent, hxs, hfs, hz, spatialStride, hkh, hkw, hsh, hsw]

variable (hsums : sums.Uniform (x.elem.promote f.elem))
include hsums

theorem convolveTensors_front {axis : Nat} (hax : axis = 1 ∨ axis = 2) {r : Nat} (hr : r ≤ x.extent axis)
    (t : Tensor) : convolveTensors sums strideH strideW (x.slice axis 0 r) f = .ok t ↔
      f.extent (axis - 1) ≤ r ∧ t = z.slice axis 0
        (Tensor.windowCount r (f.extent (axis - 1)) (spatialStride strideH strideW axis)) := by
  have hrank := (convolveTensors_spatial h hax).1
  have hfront (hwindow : f.extent (axis - 1) ≤ r) : convolveTensors sums strideH strideW (x.slice axis 0 r) f =
      .ok (z.slice axis 0 (Tensor.windowCount r (f.extent (axis - 1)) (spatialStride strideH strideW axis))) := by
    have hslice := convolveTensors_slice_spatial (j := 0) hsums h hax hr (by omega)
    rwa [Nat.zero_mul] at hslice
  refine ⟨fun ht => ?_, fun ⟨hwindow, ht⟩ => ht ▸ hfront hwindow⟩
  have hwindow : f.extent (axis - 1) ≤ r := by
    have hle := (convolveTensors_spatial ht hax).2.2.2.2.1
    rwa [Tensor.extent_slice hr hrank] at hle
  exact ⟨hwindow, Except.ok.inj (ht.symm.trans (hfront hwindow))⟩

end

section

variable {sums : Contraction} {strideH strideW axis start r stop : Nat} {x f : Tensor}

theorem stepSpatial_skip (chunk : Tensor) (h : r < start) (hr : r < stop) :
    stepSpatial sums strideH strideW chunk f axis (.after x axis start r) =
      (.ok none, .after x axis (start + (stop - (r + 1))) stop) := by
  obtain ⟨n, rfl⟩ : ∃ n, stop = r + 1 + n := Nat.exists_eq_add_of_lt hr |>.imp fun n hn => by omega
  obtain ⟨hpos, hpass⟩ := StreamBuffer.pass_after (x := x) (k := axis) n h
  rw [stepSpatial, if_pos hpos, hpass, Nat.add_sub_cancel_left]

variable (h : start ≤ r) (hr : r < stop) (hstop : stop ≤ x.extent axis) (hx : axis < x.rank) (hf : axis ≤ f.rank)
include h hr hstop hx hf

/-- What a step does with a chunk that is not skipped. -/
theorem stepSpatial_of_le : stepSpatial sums strideH strideW (x.slice axis r stop) f axis (.after x axis start r) =
    if stop - start < f.extent (axis - 1) then (.ok none, .after x axis start stop)
    else match convolveTensors sums strideH strideW (x.slice axis start stop) f with
      | .error e => (.error e, ⟨.ready, some (x.slice axis start stop), 0⟩)
      | .ok result => (.ok (some result), .after x axis (start + spatialStride strideH strideW axis) stop) := by
  obtain ⟨hzero, hacc⟩ := StreamBuffer.accumulate_after h (Nat.le_of_lt hr) hstop hx
  have hrank : (x.slice axis start stop).rank = x.rank := List.length_set
  have hafter : StreamBuffer.after x axis start stop = ⟨.accumulating, some (x.slice axis start stop), 0⟩ := by
    rw [StreamBuffer.after, if_neg (by omega), if_neg (by omega)]
  have hconsume := StreamBuffer.consume_after (spatialStride strideH strideW axis) (by omega : start ≤ stop)
    hstop hx .ready
  have hstride : ((if axis = 1 then (strideH : Int) else strideW) : Int) = spatialStride strideH strideW axis := by
    rw [spatialStride]
    split <;> rfl
  rw [stepSpatial, if_neg (by omega)]
  simp only [hacc, if_neg (Nat.not_lt.2 hf), hrank, if_neg (Nat.not_le.2 hx), Tensor.extent_slice hstop hx,
    ← hafter, hstride]
  split
  · rfl
  · cases convolveTensors sums strideH strideW (x.slice axis start stop) f with
    | error e => rw [hafter]
    | ok result =>
      simp only [hafter]
      rw [hconsume]

theorem stepSpatial_wait (hwindow : stop < start + f.extent (axis - 1)) :
    stepSpatial sums strideH strideW (x.slice axis r stop) f axis (.after x axis start r) =
      (.ok none, .after x axis start stop) := by
  rw [stepSpatial_of_le h hr hstop hx hf, if_pos (by omega)]

theorem stepSpatial_emit (hwindow : start + f.extent (axis - 1) ≤ stop) {w : Tensor}
    (hw : convolveTensors sums strideH strideW (x.slice axis start stop) f = .ok w) :
    stepSpatial sums strideH strideW (x.slice axis r stop) f axis (.after x axis start r) =
      (.ok (some w), .after x axis (start + spatialStride strideH strideW axis) stop) := by
  rw [stepSpatial_of_le h hr hstop hx hf, if_neg (by omega), hw]

end

/-- **A step of a convolution along a spatial axis** on the chunk of the positions from
`r` to `stop`. It emits the windows that the chunk completes, if any, and takes the next one
to begin a stride after the first of them; a chunk that is skipped must have extent 1. -/
theorem stepSpatial_after {sums : Contraction} {strideH strideW axis : Nat} {x f z : Tensor}
    (hsums : sums.Uniform (x.elem.promote f.elem)) (h : convolveTensors sums strideH strideW x f = .ok z)
    (hax : axis = 1 ∨ axis = 2) (hw : 0 < f.extent (axis - 1)) {r stop : Nat} (hr : r < stop)
    (hstop : stop ≤ x.extent axis) {c c' : Nat}
    (hc : c = windowsIn (f.extent (axis - 1)) (spatialStride strideH strideW axis) r)
    (hc' : c' = windowsIn (f.extent (axis - 1)) (spatialStride strideH strideW axis) stop)
    (hskip : r < c * spatialStride strideH strideW axis → stop = r + 1) :
    stepSpatial sums strideH strideW (x.slice axis r stop) f axis
        (.after x axis (c * spatialStride strideH strideW axis) r) =
      (.ok (z.chunk? axis c c'),
        .after x axis (min c' (c + 1) * spatialStride strideH strideW axis) stop) := by
  obtain ⟨hx, hf, -, hs, -, -⟩ := convolveTensors_spatial h hax
  obtain ⟨-, hhigh⟩ := windowsIn_spec (f.extent (axis - 1)) r hs
  rw [← hc] at hhigh
  -- the windows so far stay the last ones unless the next one is complete
  have hsame (hlow : stop < c * spatialStride strideH strideW axis + f.extent (axis - 1)) : c' = c := by
    obtain ⟨hbegun, -⟩ := windowsIn_spec (f.extent (axis - 1)) r hs
    rw [hc', windowsIn_eq hs (fun q hq => ?_) hlow]
    exact Nat.le_trans (hbegun q (hc ▸ hq)) (Nat.le_of_lt hr)
  by_cases hbefore : r < c * spatialStride strideH strideW axis
  · obtain rfl := hskip hbefore
    rw [hsame (by omega), Tensor.chunk?, if_neg (Nat.lt_irrefl c), Nat.min_eq_left (Nat.le_succ c)]
    have hpassed : stepSpatial sums strideH strideW (x.slice axis r (r + 1)) f axis
        (.after x axis (c * spatialStride strideH strideW axis) r) = _ :=
      stepSpatial_skip _ hbefore (Nat.lt_succ_self r)
    rwa [Nat.sub_self] at hpassed
  by_cases hfull : c * spatialStride strideH strideW axis + f.extent (axis - 1) ≤ stop
  · have hcount : c' = Tensor.windowCount stop (f.extent (axis - 1)) (spatialStride strideH strideW axis) := by
      rw [hc', windowsIn, if_neg (by omega)]
    have hlt : c < c' := by
      rw [hcount]
      exact (Tensor.lt_windowCount_iff hs (by omega)).2 hfull
    have hslice := convolveTensors_slice_spatial (j := c) hsums h hax hstop hfull
    rw [← hcount] at hslice
    rw [Tensor.chunk?, if_pos hlt, Nat.min_eq_right hlt, Nat.succ_mul]
    exact stepSpatial_emit (Nat.not_lt.1 hbefore) hr hstop hx hf hfull hslice
  · rw [hsame (Nat.lt_of_not_le hfull), Tensor.chunk?, if_neg (Nat.lt_irrefl c), Nat.min_eq_left (Nat.le_succ c)]
    exact stepSpatial_wait (Nat.not_lt.1 hbefore) hr hstop hx hf (Nat.lt_of_not_le hfull)

namespace Operator

theorem step_missing (sums : Contraction) (strideH strideW axis : Nat) (filter : Tensor) (s : StreamBuffer) :
    step (.convolution sums strideH strideW) [⟨some axis, none⟩, ⟨none, some filter⟩] (some s) =
      (.ok none, some s) := by
  simp only [step, stepConvolution]

theorem step_spatial {sums : Contraction} {strideH strideW axis : Nat} (hax : axis = 1 ∨ axis = 2)
    (chunk filter : Tensor) (s : StreamBuffer) :
    step (.convolution sums strideH strideW) [⟨some axis, some chunk⟩, ⟨none, some filter⟩] (some s) =
      ((stepSpatial sums strideH strideW chunk filter axis s).1,
        some (stepSpatial sums strideH strideW chunk filter axis s).2) := by
  rcases hax with rfl | rfl <;> rfl

end Operator

/-- **A chunk for a window**: the pace of a convolution along a spatial axis. -/
theorem Pace.spatial {sums : Contraction} {strideH strideW axis : Nat} {x f z : Tensor}
    (hsums : sums.Uniform (x.elem.promote f.elem)) (h : convolveTensors sums strideH strideW x f = .ok z)
    (hax : axis = 1 ∨ axis = 2) (hw : 0 < f.extent (axis - 1)) :
    Pace (.convolution sums strideH strideW) [⟨x, some axis⟩, ⟨f, none⟩] z axis (x.extent axis)
      (windowsIn (f.extent (axis - 1)) (spatialStride strideH strideW axis))
      fun r => some (.after x axis (windowsIn (f.extent (axis - 1)) (spatialStride strideH strideW axis) r *
        spatialStride strideH strideW axis) r) where
  state_zero := by
    have hzero : windowsIn (f.extent (axis - 1)) (spatialStride strideH strideW axis) 0 = 0 := if_pos hw
    rw [hzero, Nat.zero_mul]
    rfl
  advances := by
    obtain ⟨-, -, -, hs, -, -⟩ := convolveTensors_spatial h hax
    refine ⟨if_pos hw, fun r => ?_⟩
    rw [windowsIn_succ _ _ hs]
    split
    · exact .inr rfl
    · exact .inl rfl
  rate_le r hr := by
    obtain ⟨-, -, -, -, -, hext⟩ := convolveTensors_spatial h hax
    rw [hext, windowsIn]
    split
    · exact Nat.zero_le _
    · exact Tensor.windowCount_mono hr
  step r r' hr hlen := by
    rcases hr with rfl | rfl
    · simp only [List.map_cons, List.map_nil, Port.seen, Tensor.chunk?, if_neg (Nat.lt_irrefl _)]
      exact Operator.step_missing _ _ _ _ _ _
    · obtain ⟨-, -, -, hs, -, -⟩ := convolveTensors_spatial h hax
      have hstep := stepSpatial_after hsums h hax hw (Nat.lt_succ_self r) hlen rfl rfl fun _ => rfl
      rw [Nat.min_eq_left (windowsIn_succ_le r hs)] at hstep
      simp only [List.map_cons, List.map_nil, Port.seen, Tensor.chunk?, if_pos (Nat.lt_succ_self r)]
      exact (Operator.step_spatial hax _ _ _).trans (congrArg (fun y => (y.1, some y.2)) hstep)
  front r _ hr t := by
    have hfront := convolveTensors_front h hsums hax hr t
    refine hfront.trans ?_
    unfold windowsIn
    by_cases hwindow : r < f.extent (axis - 1)
    · rw [if_pos hwindow]
      exact ⟨fun ht => absurd ht.1 (by omega), fun ht => absurd ht.1 (Nat.lt_irrefl 0)⟩
    · rw [if_neg hwindow]
      exact and_congr_left fun _ => ⟨fun _ => Nat.succ_pos _, fun _ => Nat.le_of_not_lt hwindow⟩

theorem Pace.batch {sums : Contraction} {strideH strideW : Nat} {x f z : Tensor}
    (hsums : sums.Uniform (x.elem.promote f.elem)) (h : convolveTensors sums strideH strideW x f = .ok z) :
    Pace (.convolution sums strideH strideW) [⟨x, some 0⟩, ⟨f, none⟩] z 0 (x.extent 0) id fun _ => some .fresh where
  state_zero := rfl
  advances := .id
  rate_le r hr := by
    obtain ⟨n, hx, wx, c, kh, kw, o, hxs, -, -, -, -, -, rfl⟩ := convolveTensors_eq_ok_iff.1 h
    rw [Tensor.extent, hxs] at hr
    exact hr
  step r r' hr hlen := by
    rcases hr with rfl | rfl
    · simp only [Operator.step, stepConvolution, List.map_cons, List.map_nil, Port.seen, Tensor.chunk?,
        Nat.lt_irrefl, if_false, id]
    · have hslice : some <$> convolveTensors sums strideH strideW (x.slice 0 r (r + 1)) f =
          .ok (some (z.slice 0 r (r + 1))) := by
        rw [convolveTensors_slice_batch hsums h hlen]
        rfl
      simp only [Operator.step, stepConvolution, List.map_cons, List.map_nil, Port.seen, Tensor.chunk?,
        Nat.lt_succ_self, if_true, id]
      exact congrArg (fun y => (y, some StreamBuffer.fresh)) hslice
  front r hpos hr t := by
    have hslice : Operator.eval (.convolution sums strideH strideW) [x.slice 0 0 r, f] = .ok (z.slice 0 0 r) :=
      convolveTensors_slice_batch hsums h hr
    show Operator.eval _ [x.slice 0 0 r, f] = _ ↔ _
    rw [hslice, Except.ok.injEq]
    exact ⟨fun ht => ⟨hpos, ht.symm⟩, fun ht => ht.2.symm⟩

/-! ### Operators of the library -/

namespace Operator

/-- What an operator infers and does on streams: without a streamed input the shape
of the output is known, and with one it is streamed too, at some pace. -/
def Delivers (op : Operator) (ports : List Port) (out : TensorFact) (z : Tensor) : Prop :=
  (∀ p ∈ ports, p.axis = none) ∧ out.shape = along z.shape none ∨
  ∃ p ∈ ports, ∃ k k', p.axis = some k ∧ k' < z.rank ∧ out.shape = along z.shape (some k') ∧
    ∃ rate state, Pace op ports z k' (p.tensor.extent k) rate state

theorem Delivers.shape_eq {op : Operator} {ports : List Port} {out : TensorFact} {z : Tensor}
    (h : op.Delivers ports out z) :
    ∃ axis, out.shape = along z.shape axis ∧ ∀ k, axis = some k → k < z.rank := by
  rcases h with ⟨-, hout⟩ | ⟨p, -, k, k', -, hk', hout, -⟩
  · exact ⟨none, hout, fun k hk => nomatch hk⟩
  · exact ⟨some k', hout, fun k hk => Option.some.inj hk ▸ hk'⟩

/-- Whether a convolution gets its filter whole, and the filter has positions along
the axis of its data that are streamed. -/
def FiltersWhole (op : Operator) (ports : List Port) : Prop :=
  ∀ sums strideH strideW data filter, op = convolution sums strideH strideW → ports = [data, filter] →
    filter.axis = none ∧ ∀ k, data.axis = some (k + 1) → filter.tensor.shape[k]? ≠ some 0

/-- Whether a library sums uniformly what a convolution of streamed data lets it sum. -/
def SumsUniformly (op : Operator) (ports : List Port) : Prop :=
  match op, ports with
  | convolution sums _ _, [data, filter] =>
    data.axis ≠ none → sums.Uniform (data.tensor.elem.promote filter.tensor.elem)
  | _, _ => True

variable {op : Operator} {ports : List Port} {fs ins : List TensorFact} {y out : TensorFact} {z : Tensor}

/-- An operator with one input that keeps it in slices, along the same axis or another. -/
theorem delivers_one {p : Port} (hop : op.newState = none) {axisOf : Nat → Nat}
    (haxis : ∀ k, p.axis = some k → k < p.tensor.rank) (hout : out.shape = along z.shape (p.axis.map axisOf))
    (hlt : ∀ k < p.tensor.rank, axisOf k < z.rank)
    (hext : ∀ k < p.tensor.rank, z.extent (axisOf k) = p.tensor.extent k)
    (hslice : ∀ k < p.tensor.rank, ∀ a b, b ≤ p.tensor.extent k →
      op.eval [p.tensor.slice k a b] = .ok (z.slice (axisOf k) a b)) : op.Delivers [p] out z := by
  obtain ⟨x, _ | k⟩ := p
  · exact .inl ⟨by simp, hout⟩
  · have hk := haxis k rfl
    refine .inr ⟨_, .head _, k, axisOf k, rfl, hlt k hk, hout, id, fun _ => none, ?_⟩
    exact Pace.chunkwise hop (.head _) rfl (hext k hk) fun a b hb => hslice k hk a b hb

/-- A sum of a streamed tensor and a whole one keeps slices along the aligned axis. -/
theorem delivers_aligned {p : Port} (hmem : p ∈ ports) {k : Nat} (hk : p.axis = some k)
    (hlt : k < p.tensor.rank) {ys : List Nat} (hzs : broadcastExtents p.tensor.shape ys = some z.shape)
    {s : ShapeFact} (hs : broadcastShapes (along p.tensor.shape (some k)) (along ys none) = .ok s)
    (hle : out.shape.Refines s)
    (hslice : ∀ {j k' a b}, k + j + 1 = p.tensor.rank → k' + j + 1 = z.rank → ys.reverse.getD j 1 = 1 →
      b ≤ p.tensor.extent k → add.eval (ports.map (·.slice a b)) = .ok (z.slice k' a b)) :
    add.Delivers ports out z := by
  obtain ⟨j, hj⟩ : ∃ j, k + j + 1 = p.tensor.rank := ⟨p.tensor.rank - 1 - k, by omega⟩
  obtain ⟨hone, k', hk', rfl⟩ := broadcastShapes_along hzs hj hs
  refine .inr ⟨p, hmem, k, k', hk, ?_, hle.eq_along, id, fun _ => none, ?_⟩
  · rw [Tensor.rank]
    omega
  · exact Pace.chunkwise rfl hmem hk (Tensor.extent_of_broadcast hzs hj hk' hone) fun a b hb =>
      hslice hj hk' hone hb

theorem delivers_add {p q : Port} {f g : TensorFact} (hp : p.Known f) (hq : q.Known g)
    (hr : refineAdd f g y = .ok (ins, some out)) (he : p.tensor.add q.tensor = .ok z)
    (hsingle : p.axis = none ∨ q.axis = none) : add.Delivers [p, q] out z := by
  obtain ⟨s, hs, hle⟩ := refineAdd_shape hr
  have hzs : broadcastExtents p.tensor.shape q.tensor.shape = some z.shape := by
    obtain ⟨zs, hzs, rfl⟩ := Tensor.add_eq_ok_iff.1 he
    exact hzs
  rw [hp.shape, hq.shape] at hs
  cases hpa : p.axis with
  | some k =>
    have hqa : q.axis = none := hsingle.resolve_left fun h => by rw [hpa] at h; cases h
    rw [hpa, hqa] at hs
    refine delivers_aligned (.head _) hpa (hp.axis_lt k hpa) hzs hs hle fun hj hk' hone hb => ?_
    simp only [List.map_cons, List.map_nil, Port.slice, hpa, hqa]
    exact ofKernel_eq_ok_iff.2 (Tensor.add_slice_left he hj hk' hone hb)
  | none =>
    rw [hpa] at hs
    cases hqa : q.axis with
    | some l =>
      rw [hqa] at hs
      have hzs' := (broadcastExtents_comm _ _).trans hzs
      refine delivers_aligned (.tail _ (.head _)) hqa (hq.axis_lt l hqa) hzs' (broadcastShapes_comm hs) hle
        fun hj hk' hone hb => ?_
      simp only [List.map_cons, List.map_nil, Port.slice, hpa, hqa]
      exact ofKernel_eq_ok_iff.2 (Tensor.add_slice_right he hj hk' hone hb)
    | none =>
      rw [hqa] at hs
      cases hs.symm.trans (broadcastShapes_ofExtents hzs)
      exact .inl ⟨by simp [hpa, hqa], hle.eq_along⟩

theorem delivers_convolution {sums : Contraction} {strideH strideW : Nat} {p q : Port} {f g : TensorFact}
    (hsums : p.axis ≠ none → sums.Uniform (p.tensor.elem.promote q.tensor.elem)) (hp : p.Known f) (hq : q.Known g)
    (hr : refineConvolution sums strideH strideW f g y = .ok (ins, some out))
    (he : convolveTensors sums strideH strideW p.tensor q.tensor = .ok z) (hwhole : q.axis = none)
    (hwindow : ∀ k, p.axis = some (k + 1) → q.tensor.shape[k]? ≠ some 0) :
    (convolution sums strideH strideW).Delivers [p, q] out z := by
  obtain ⟨x, axis⟩ := p
  obtain ⟨u, l⟩ := q
  obtain rfl : l = none := hwhole
  obtain ⟨hchannels, hout⟩ := refineConvolution_along hp.shape hq.shape hp.axis_lt he hr
  obtain ⟨hrank, hfilter⟩ : (x.rank = 4 ∧ z.rank = 4) ∧ u.rank = 4 := by
    obtain ⟨n, hx, wx, c, kh, kw, o, hxs, hus, -, -, -, -, rfl⟩ := convolveTensors_eq_ok_iff.1 he
    exact ⟨⟨by rw [Tensor.rank, hxs]; rfl, rfl⟩, by rw [Tensor.rank, hus]; rfl⟩
  have hpositive {k : Nat} (hk : k < 4) (h : u.shape[k]? ≠ some 0) : 0 < u.extent k := by
    rw [← hfilter, Tensor.rank] at hk
    rw [Tensor.extent, List.getD_eq_getElem?_getD, List.getElem?_eq_getElem hk]
    rw [List.getElem?_eq_getElem hk] at h
    exact Nat.pos_of_ne_zero fun h0 => h (congrArg some h0)
  cases axis with
  | none => exact .inl ⟨by simp, hout⟩
  | some k =>
    have hk := hp.axis_lt k rfl
    have huniform := hsums (Option.some_ne_none k)
    refine .inr ⟨_, .head _, k, k, rfl, by rw [hrank.2]; exact hrank.1 ▸ hk, hout, ?_⟩
    rcases k with _ | _ | _ | _ | k
    · exact ⟨_, _, Pace.batch huniform he⟩
    · exact ⟨_, _, Pace.spatial huniform he (.inl rfl) (hpositive (by decide) (hwindow 0 rfl))⟩
    · exact ⟨_, _, Pace.spatial huniform he (.inr rfl) (hpositive (by decide) (hwindow 1 rfl))⟩
    · exact absurd rfl hchannels
    · rw [hrank.1] at hk
      exact absurd hk (by omega)

/-- **What an operator of the library does on streams** fits what it infers of them. -/
theorem delivers (hop : op.IsLibrary) (hfacts : List.Forall₂ Port.Known ports fs)
    (hr : op.refine fs y = .ok (ins, some out)) (he : op.eval (ports.map Port.tensor) = .ok z)
    (hsingle : (ports.filter (·.axis.isSome)).length ≤ 1) (hfilter : op.FiltersWhole ports)
    (hsums : op.SumsUniformly ports) : op.Delivers ports out z := by
  rcases refine_cases hop hr with ⟨t, rfl, rfl, rfl, rfl⟩ | ⟨fact, rfl, rfl, rfl, rfl⟩ |
    ⟨f, invertible, hkind, rfl, h⟩ | ⟨perm, f, rfl, rfl, h⟩ | ⟨f, g, rfl, rfl, h⟩ | ⟨sums, sh, sw, f, g, rfl, rfl, h⟩
  · cases hfacts
    cases he
    exact .inl ⟨by simp, rfl⟩
  · cases hfacts
    cases he
  · rcases hfacts with _ | ⟨hp, _ | _⟩
    rename_i p
    have hle := refineElementwise_shape h
    rw [hp.shape] at hle
    have hout : out.shape = along p.tensor.shape (p.axis.map id) := by
      rw [Option.map_id]
      exact hle.eq_along
    rcases hkind with ⟨rfl, -⟩ | ⟨rfl, -⟩
    · cases he
      exact delivers_one rfl hp.axis_lt hout (fun _ hk => hk) (fun _ _ => rfl) fun _ _ _ _ _ => rfl
    · cases he
      exact delivers_one rfl hp.axis_lt hout (fun _ hk => hk) (fun _ _ => rfl) fun k hk a b hb =>
        congrArg Except.ok (Tensor.clamp_slice hb hk)
  · rcases hfacts with _ | ⟨hp, _ | _⟩
    rename_i p
    obtain ⟨entries, axes, hperm, haxes, rfl⟩ := transposeTensor_eq_ok_iff.1 he
    have hout := refineTranspose_along hop hp.shape hp.axis_lt hperm haxes h
    have hp' := permFor_perm hop hperm
      (mapM_eq_some_iff.2 ((mapM_eq_some_iff.1 haxes).imp fun _ _ => position?_of_axis?))
    have hmem {k : Nat} (hk : k < p.tensor.rank) : k ∈ axes := hp'.mem_iff.2 (List.mem_range.2 hk)
    refine delivers_one rfl hp.axis_lt hout (fun k hk => ?_) (fun k hk => Tensor.extent_permute (hmem hk))
      fun k hk a b hb => ?_
    · rw [Tensor.rank, Tensor.shape_permute, List.length_map]
      exact List.idxOf_lt_length_of_mem (hmem hk)
    · have hrank : (p.tensor.slice k a b).rank = p.tensor.rank := List.length_set
      refine transposeTensor_eq_ok_iff.2 ⟨entries, axes, hrank ▸ hperm, haxes, ?_⟩
      exact Tensor.permute_slice hp' hb hk
  · rcases hfacts with _ | ⟨hp, _ | ⟨hq, _ | _⟩⟩
    rename_i p q
    refine delivers_add hp hq h (ofKernel_eq_ok_iff.1 he) ?_
    cases hpa : p.axis <;> cases hqa : q.axis <;> simp_all
  · rcases hfacts with _ | ⟨hp, _ | ⟨hq, _ | _⟩⟩
    obtain ⟨hwhole, hwindow⟩ := hfilter sums sh sw _ _ rfl rfl
    exact delivers_convolution hsums hp hq h he hwhole hwindow

end Operator

end EdgeFacts
