/-
# Streaming is evaluation

A model with a streamed input is run chunk by chunk on the unit slices of a
tensor. What comes out of it, put together, is what the model computes from the
whole tensor; nothing comes out if the tensor is too short for that.

Where the analysis has settled, chunks flow through its plan
(`Analysis.Streamable.exists_flow`), sessions follow the flow (`Analysis.Flow.run`),
and so does evaluation on the first chunks (`Analysis.Flow.evaluateAll_eq_ok_iff`).
The flow is that of any longer tensor on which all is defined.

Key definitions: `Tensor.IsStart`, `Analysis.RunsAsEvaluated`.
Key theorems: `Analysis.Flow.deliver`, `Analysis.Streamable.exists_run`,
`Analysis.run_unitSlices`.
-/
import EdgeFacts.Proofs.Reachable
import EdgeFacts.Proofs.Session

namespace EdgeFacts

open ShapeFact (along)

/-! ### The first chunks of a tensor -/

namespace Tensor

/-- Whether a tensor is what another one begins with along an axis. -/
def IsStart (x y : Tensor) (axis : Nat) : Prop :=
  x.extent axis ≤ y.extent axis ∧ x = y.slice axis 0 (x.extent axis)

theorem IsStart.refl (x : Tensor) (axis : Nat) : x.IsStart x axis := ⟨Nat.le_refl _, (slice_full x axis).symm⟩

theorem IsStart.unitSlices {x y : Tensor} {axis : Nat} (h : x.IsStart y axis) (haxis : axis < y.rank) :
    x.unitSlices axis = (List.range' 0 (x.extent axis)).map fun j => y.slice axis j (j + 1) := by
  rw [Tensor.unitSlices, List.range_eq_range']
  refine List.map_congr_left fun j hj => ?_
  have hj' : j + 1 ≤ x.extent axis := (by simpa using hj : j < x.extent axis)
  have hslice := slice_slice (c := j) (d := j + 1) (Nat.zero_le _) h.1 haxis hj'
  rwa [← h.2, Nat.zero_add, Nat.zero_add] at hslice

end Tensor

/-- The chunks that come while a count advances are the unit slices up to it. -/
theorem Advances.filterMap_chunk? {c : Nat → Nat} (h : Advances c) (z : Tensor) (k : Nat) : ∀ n : Nat,
    ((List.range' 0 n).filterMap fun m => z.chunk? k (c m) (c (m + 1))) =
      (List.range (c n)).map fun j => z.slice k j (j + 1)
  | 0 => by
    rw [h.zero]
    rfl
  | n + 1 => by
    rw [List.range'_1_concat, Nat.zero_add, List.filterMap_append, h.filterMap_chunk? z k n]
    rcases h.succ n with hsame | hnext
    · simp [Tensor.chunk?, hsame]
    · simp [Tensor.chunk?, hnext, List.range_succ]

namespace Analysis

/-! ### What the output needs -/

section

variable {a : Analysis} (hw : WellFormed a) (hstable : a.Stable)
include hw hstable

theorem exists_outputFact : ∀ i ∈ a.plan, ∃ f, a.outputFact i = .ok f := by
  intro i hi
  obtain ⟨-, -, f, -, -, hf, -⟩ := (hstable i hi).inferred hw.toLinked
  exact ⟨f, hf⟩

/-- An input of the model has no producers where no node has anything to add. -/
theorem producersAt_placeholder {i : Nat} (hi : i ∈ a.plan) {n : Node} (hn : a.nodes[i]? = some n)
    (hop : n.op.isPlaceholder = true) : Plan.producersAt a.nodes i = [] := by
  obtain ⟨m, ins, y, out, hm, -, href, -⟩ := (hstable i hi).inferred hw.toLinked
  cases hn.symm.trans hm
  obtain ⟨fact, hfact⟩ := Operator.placeholder_of_isPlaceholder hop
  rw [hfact] at href
  have hnil : a.edgesInto i = [] := List.map_eq_nil_iff.1 (Operator.refine_placeholder href).1
  have horigin := hw.inputs_origin hn hi
  rw [hnil] at horigin
  have hinputs : n.inputs = [] := List.forall₂_nil_left_iff.1 horigin
  rw [Plan.producersAt_eq hn]
  exact (congrArg (List.map _) hinputs : n.producers = [])

theorem evaluateAll_of_required {feed : Nat → Except Failure Tensor} {v : Tensor}
    (hv : evaluateAll a.nodes feed a.plan noResults a.output.toNat = .ok v) {i : Nat}
    (hi : Plan.Required a.nodes a.output.toNat i) : ∃ t, evaluateAll a.nodes feed a.plan noResults i = .ok t := by
  induction hi with
  | output => exact ⟨v, hv⟩
  | @producer i p hreq hp ih =>
    obtain ⟨t, ht⟩ := ih
    have hi := hw.of_required hreq
    obtain ⟨n, hn⟩ := hw.exists_node hi
    have hop : ¬ n.op.isPlaceholder = true := fun hop => by
      rw [producersAt_placeholder hw hstable hi hn hop] at hp
      cases hp
    rw [evaluateAll_eq hw.ordered hi, evaluateNode_eq hn, if_neg hop, bind_eq_ok_iff] at ht
    obtain ⟨ts, hmap, -⟩ := ht
    rw [Plan.producersAt_eq hn] at hp
    exact exists_of_mapM hmap p hp

end

/-! ### Flows out of the output -/

namespace Streamable

variable {a : Analysis} {inputs : Table Tensor} {x : Node} {fact : TensorFact}
  (h : a.Streamable inputs x fact) (hw : WellFormed a) (hlib : OfLibrary a) (hstable : a.Stable) {t : Tensor}
  {axis : Nat} (hfact : fact.shape = along t.shape (some axis)) (haxis : axis < t.rank)
  {value : Nat → Tensor} (hvalue : Evaluated a.nodes (a.fed inputs x t) a.plan value)
  (hsums : a.SumsUniformly value)
include h hw hlib hstable hfact haxis hvalue hsums

/-- What is not streamed needs nothing that is, if some edge leaves it. -/
theorem whole_of_edgesFrom {i : Nat} (hi : i ∈ a.plan) (hnone : a.outputAxis i = none)
    (hne : a.edgesFrom i ≠ []) : ∀ p ∈ Plan.producersAt a.nodes i, a.outputAxis p = none := by
  intro p hp
  obtain ⟨n, hn⟩ := hw.exists_node hi
  cases hop : n.op.isPlaceholder with
  | true =>
    rw [producersAt_placeholder hw hstable hi hn hop] at hp
    cases hp
  | false =>
    rw [Plan.producersAt_eq hn] at hp
    have hproducers : ∀ p ∈ n.producers, a.Tells value p := fun p hp =>
      h.tells hw hlib hstable hfact haxis hvalue hsums p
        (hw.ordered.idxOf_lt hi (Plan.mem_producersAt_of_node hn hp)).1
    obtain ⟨y, out, hy, hdelivers, hedges⟩ := h.delivers hw hlib hstable hvalue hsums hi hn hop hproducers
    rcases hdelivers with ⟨hall, -⟩ | ⟨-, -, k, k', -, hk', hout, -⟩
    · exact hall _ (List.mem_map_of_mem hp)
    · obtain ⟨-, ⟨hnil, -⟩ | ⟨-, hsome⟩⟩ :=
        outputAxis_cases hy hw.toLinked (hw.lt i hi) hedges hout fun k hk => Option.some.inj hk ▸ hk'
      · exact absurd hnil hne
      · cases hnone.symm.trans hsome

/-- What is not streamed needs nothing that is, if no streamed edge leads into it. -/
theorem whole_of_edgesInto {i : Nat} (hi : i ∈ a.plan) (hnone : ∀ e ∈ a.edgesInto i, e.axis = none) :
    ∀ p ∈ Plan.producersAt a.nodes i, a.outputAxis p = none := by
  intro p hp
  obtain ⟨n, hn⟩ := hw.exists_node hi
  have haxes := axes_eq hw hn hi fun p hp => h.tells hw hlib hstable hfact haxis hvalue hsums p
    (hw.ordered.idxOf_lt hi (Plan.mem_producersAt_of_node hn hp)).1
  rw [Plan.producersAt_eq hn] at hp
  have hmem : a.outputAxis p ∈ (a.edgesInto i).map Edge.axis := haxes ▸ List.mem_map_of_mem hp
  obtain ⟨e, he, hep⟩ := List.mem_map.1 hmem
  rw [← hep, hnone e he]

theorem holds (hout : a.outputAxis a.output.toNat ≠ none)
    (hwhole : ∀ i ∈ a.plan, a.outputAxis i = none → ∀ p ∈ Plan.producersAt a.nodes i, a.outputAxis p = none) :
    a.Holds inputs value where
  facts := exists_outputFact hw hstable
  axes i hi n hn := axes_eq hw hn hi fun p hp => h.tells hw hlib hstable hfact haxis hvalue hsums p
    (hw.ordered.idxOf_lt hi (Plan.mem_producersAt_of_node hn hp)).1
  whole := hwhole
  values i hi hnone n hn := by
    have hat := hvalue i hi n hn
    split at hat
    · rename_i hop
      rw [if_pos hop]
      rcases h.placeholder_cases hw hvalue hi hn hop with ⟨rfl, -, -⟩ | ⟨f, -, hfind, -⟩
      · have hsource := (h.source_of_streamed hw hlib hstable hfact haxis hvalue hsums _ hw.output_mem hout).2
        cases hnone.symm.trans hsource
      · exact hfind
    · rename_i hop
      rw [if_neg hop]
      exact hat

end Streamable

/-- **What a run delivers**, put together, is what evaluation gives at the output on
the chunks that arrived, if that is anything. -/
theorem Flow.deliver {a : Analysis} {x : Nat} {value : Nat → Tensor} {axis : Nat} {count : Nat → Nat → Nat}
    {state : Nat → Nat → Option StreamBuffer} (h : a.Flow x value axis count state) (hw : WellFormed a)
    {feed feed' : Nat → Except Failure Tensor} (hvalue : Evaluated a.nodes feed a.plan value) {m : Nat}
    (hpos : 0 < m) (hm : m ≤ (value x).extent axis) (hfeed : feed' x = .ok ((value x).slice axis 0 m))
    (hothers : ∀ i, i ≠ x → feed' i = feed i) {j : Nat} (hout : a.outputAxis a.output.toNat = some j) :
    match evaluateAll a.nodes feed' a.plan noResults a.output.toNat with
    | .ok t => Tensor.concatAll j ((List.range' 0 m).filterMap (a.chunkAt value count a.output.toNat)) = .ok t
    | .error _ => (List.range' 0 m).filterMap (a.chunkAt value count a.output.toNat) = [] := by
  generalize ho : a.output.toNat = o at *
  have hmem : o ∈ a.plan := ho ▸ hw.output_mem
  obtain ⟨hadvances, hle⟩ := h.advances hw o hmem j hout
  have hchunk : a.chunkAt value count o = fun m => (value o).chunk? j (count o m) (count o (m + 1)) := by
    funext m
    rw [chunkAt, hout]
    rfl
  have hslice : (a.port value o).slice 0 (count o m) = (value o).slice j 0 (count o m) := by
    rw [port, Port.slice, hout]
  have hiff := h.evaluateAll_eq_ok_iff hw hvalue hpos hm hfeed hothers hw.ordered (fun i hi => hi) o hmem
  rw [hslice, hout] at hiff
  rw [hchunk, hadvances.filterMap_chunk?]
  cases heval : evaluateAll a.nodes feed' a.plan noResults o with
  | ok t =>
    obtain ⟨hcount, ht⟩ := (hiff t).1 heval
    obtain ⟨c, hc⟩ := Nat.exists_eq_succ_of_ne_zero (Nat.ne_of_gt (hcount j rfl))
    have hext := hle m hm
    rw [hc] at hext ht ⊢
    rw [ht]
    exact Tensor.concatAll_slices (h.axis_lt o hmem j hout) c hext
  | error e =>
    have hzero : count o m = 0 := by
      by_contra hne
      have hok := (hiff _).2 ⟨fun k _ => Nat.pos_of_ne_zero hne, rfl⟩
      cases heval.symm.trans hok
    rw [hzero]
    rfl

/-! ### Streamed models -/

/-- Whether a session runs on the unit slices of a tensor and what it emits, put
together, is what the model is evaluated to: nothing if that is undefined. -/
def RunsAsEvaluated (a : Analysis) (inputs : Table Tensor) (x : Node) (t : Tensor) (axis j : Nat)
    (s : Session) : Prop :=
  ∃ chunks s', s.run x.name (t.unitSlices axis) = (.ok chunks, s') ∧
    match a.toModel.evaluate a.output (a.fed inputs x t) with
    | .ok v => Tensor.concatAll j chunks = .ok v
    | .error _ => chunks = []

theorem evaluate_planned {a : Analysis} (hw : WellFormed a) (feed : Nat → Except Failure Tensor) {i : Nat}
    (hi : i ∈ a.plan) : a.toModel.evaluate i feed = evaluateAll a.nodes feed a.plan noResults i :=
  Model.evaluate_eq (m := a.toModel) hw.ordered hw.lt hw.resolved hi

theorem evaluate_output {a : Analysis} (hw : WellFormed a) (feed : Nat → Except Failure Tensor) :
    a.toModel.evaluate a.output feed = evaluateAll a.nodes feed a.plan noResults a.output.toNat := by
  rw [← evaluate_planned hw feed hw.output_mem, Int.toNat_of_nonneg hw.output_lt.1]

namespace Streamable

variable {a : Analysis} {inputs : Table Tensor} {x : Node} {fact : TensorFact}
  (h : a.Streamable inputs x fact) (hw : WellFormed a)
include h hw

theorem value_source {t : Tensor} {value : Nat → Tensor}
    (hvalue : Evaluated a.nodes (a.fed inputs x t) a.plan value) (hx : x.id.toNat ∈ a.plan) :
    value x.id.toNat = t := by
  have hn := (h.source hw).1
  have hat := hvalue _ hx x hn
  rw [h.declared, if_pos (by rfl), fed_source hn] at hat
  exact (Except.ok.inj hat).symm

theorem fed_congr (t u : Tensor) {i : Nat} (hi : i ≠ x.id.toNat) : a.fed inputs x t i = a.fed inputs x u i := by
  unfold fed
  cases hn : a.nodes[i]? with
  | none => simp [itemAt, hn, orFail, bind, Except.bind]
  | some n =>
    have hid : n.id ≠ x.id := fun hid => hi ((h.source hw).2 i n hn hid).1
    simp only [itemAt_eq_ok_iff.2 hn, bind, Except.bind, if_neg hid]

/-- **A session runs** on the unit slices of what a tensor begins with, if all planned
nodes are evaluated on that tensor. -/
theorem exists_run (hlib : OfLibrary a) (hstable : a.Stable) {whole : Tensor} {axis : Nat}
    (hfact : fact.shape = along whole.shape (some axis)) {value : Nat → Tensor}
    (hvalue : Evaluated a.nodes (a.fed inputs x whole) a.plan value) (hsums : a.SumsUniformly value)
    (hwhole : ∀ i ∈ a.plan, a.outputAxis i = none → ∀ p ∈ Plan.producersAt a.nodes i, a.outputAxis p = none)
    {j : Nat} (hout : a.outputAxis a.output.toNat = some j) {t : Tensor} (ht : t.IsStart whole axis)
    (hpos : 0 < t.extent axis) :
    ∃ s, Session.start a inputs = .ok s ∧ a.RunsAsEvaluated inputs x t axis j s := by
  have haxis : axis < whole.rank := Tensor.lt_rank_of_extent (Nat.lt_of_lt_of_le hpos ht.1)
  have hne : a.outputAxis a.output.toNat ≠ none := by
    rw [hout]
    exact Option.some_ne_none j
  have hholds := h.holds hw hlib hstable hfact haxis hvalue hsums hne hwhole
  obtain ⟨count, state, hflow⟩ := h.exists_flow hw hlib hstable hfact haxis hvalue hsums hwhole hne
  have hsource := h.value_source hw hvalue hflow.source_mem
  have hid : x.id = (x.id.toNat : Nat) := by
    have := hw.ids _ x (h.source hw).1
    omega
  have hm : t.extent axis ≤ (value x.id.toNat).extent axis := by
    rw [hsource]
    exact ht.1
  have hrun := hflow.run hw h.named hid (by rw [isStreamed, hout]; rfl) (m := 0) (r := t.extent axis) (by omega)
  rw [hflow.session_zero hw, hsource, ← ht.unitSlices haxis] at hrun
  have hfeed : a.fed inputs x t x.id.toNat = .ok ((value x.id.toNat).slice axis 0 (t.extent axis)) := by
    rw [fed_source (h.source hw).1, hsource, ← ht.2]
  refine ⟨_, start_session hw hholds, _, _, hrun, ?_⟩
  rw [evaluate_output hw]
  exact hflow.deliver hw hvalue hpos hm hfeed (fun i hi => h.fed_congr hw t whole hi) hout

end Streamable

end Analysis

/-! ### Sums of neighbours -/

/-- Integers one below the other, as a batch of one image with one channel. -/
def column (xs : List Int) : Tensor :=
  .ofFn (.int .w64) [1, xs.length, 1, 1] fun index => .int (xs.getD (index.getD 1 0) 0)

/-- The fact of columns that are streamed downwards. -/
def columns : TensorFact := ⟨some (.elem (.int .w64)), along [1, 0, 1, 1] (some 1), none⟩

/-- The filter that adds two integers one below the other. -/
def pairFilter : Tensor := .ofFn (.int .w64) [2, 1, 1, 1] fun _ => .int 1

/-- The column whose neighbours are added. -/
def pairSumsInput : Node := ⟨0, "x", "Placeholder", .placeholder columns, []⟩

/-- The sums of neighbours in a column, each with an offset. -/
def pairSums : Model := ⟨[pairSumsInput,
  ⟨1, "w", "Const", .const pairFilter, []⟩,
  ⟨2, "y", "Conv2D", .convolution .sequential 1 1, [⟨0, none⟩, ⟨1, none⟩]⟩,
  ⟨3, "b", "Placeholder", .placeholder ⟨none, .ofExtents [1], none⟩, []⟩,
  ⟨4, "z", "Add", .add, [⟨2, none⟩, ⟨3, none⟩]⟩]⟩

namespace Analysis

/-- What a run comes to know of the sums of neighbours. -/
def pairSumsSettled : Analysis where
  nodes := pairSums.nodes
  edges := [⟨0, some 0, 0, some 2, columns⟩, ⟨1, some 1, 0, some 2, .ofTensor pairFilter⟩,
    ⟨2, some 2, 0, some 4, columns⟩,
    ⟨3, some 3, 0, some 4, ⟨some (.elem (.int .w64)), .ofExtents [1], none⟩⟩,
    ⟨4, some 4, 0, none, columns⟩]
  incoming := [[], [], [0, 1], [], [2, 3]]
  outgoing := [[0], [1], [2], [3], [4]]
  output := 4
  plan := [0, 1, 2, 3, 4]
  passIndex := 4
  stepIndex := 0
  forward := true
  roundLimit := none

/-- The offset that is added to each sum. -/
def pairSumsOffset : Table Tensor := [("b", .ofFn (.int .w64) [1] fun _ => .int 10)]

theorem mem_pairSums {i : Nat} (hi : i ∈ pairSumsSettled.plan) : i = 0 ∨ i = 1 ∨ i = 2 ∨ i = 3 ∨ i = 4 := by
  simpa [pairSumsSettled] using hi

theorem pairSums_streamable : pairSumsSettled.Streamable pairSumsOffset pairSumsInput columns where
  named := rfl
  declared := rfl
  single := by decide
  whole i hi e he haxis := by
    rcases mem_pairSums hi with rfl | rfl | rfl | rfl | rfl
    · cases he
    · cases he
    · rcases he with _ | ⟨_, _ | ⟨_, he⟩⟩
      · cases haxis
      · exact ⟨_, rfl⟩
      · cases he
    · cases he
    · rcases he with _ | ⟨_, _ | ⟨_, he⟩⟩
      · cases haxis
      · exact ⟨_, rfl⟩
      · cases he
  given i hi n hn hop hid := by
    rcases mem_pairSums hi with rfl | rfl | rfl | rfl | rfl <;> cases hn <;> cases hop
    · exact absurd rfl hid
    · exact ⟨_, _, rfl, rfl, rfl, .cons rfl .nil, fun _ => rfl⟩
  filters i hi n sums strideH strideW data filter hn hop hedges := by
    rcases mem_pairSums hi with rfl | rfl | rfl | rfl | rfl <;> cases hn <;> cases hop
    cases hedges
    refine ⟨rfl, fun k hk => ?_⟩
    cases hk
    decide

theorem pairSums_sumsUniformly (value : Nat → Tensor) : pairSumsSettled.SumsUniformly value := by
  intro i hi n hn
  rcases mem_pairSums hi with rfl | rfl | rfl | rfl | rfl <;> cases hn
  · trivial
  · trivial
  · exact fun _ => Contraction.sequential_uniform _
  · trivial
  · trivial

theorem pairSums_required {i : Nat} (hi : i ∈ pairSumsSettled.plan) :
    Plan.Required pairSums.nodes 4 i := by
  have hy : Plan.Required pairSums.nodes 4 2 := .producer .output (.head _)
  rcases mem_pairSums hi with rfl | rfl | rfl | rfl | rfl
  · exact .producer hy (.head _)
  · exact .producer hy (.tail _ (.head _))
  · exact hy
  · exact .producer .output (.tail _ (.head _))
  · exact .output

end Analysis

end EdgeFacts
