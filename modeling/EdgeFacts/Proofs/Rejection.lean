/-
# What a push that fails leaves

A push that fails for want of an input leaves the session as it was. One that fails at
a node may leave traces, at convolutions along a spatial axis only, for nothing else
keeps anything (`Operator.step_cases`): those before the node have taken their steps,
and if the node is such a convolution it may have joined the chunk to its buffer before
it came to refuse it (`stepSpatial_error`). So a session without such convolutions is
left as it was by every push that fails, and in general the traces are these
(`Analysis.push_fails_with`). What has been joined stays: the next chunk that fits is
then refused (`Analysis.column_wedged`).

Key definitions: `StreamNode.Spatial`, `Session.Kept`, `Session.Stepped`, `Session.Joined`.
Key theorems: `stepSpatial_error`, `Session.StartedBy.push_error`, `Session.StartedBy.eq_of_kept`,
`Analysis.push_fails_with`.
-/
import EdgeFacts.Proofs.Consistent
import EdgeFacts.Proofs.Push

namespace EdgeFacts

/-! ### Steps that fail -/

/-- **A spatial step that fails** leaves the buffer as it was or has joined the chunk to it. -/
theorem stepSpatial_error {sums : Contraction} {strideH strideW axis : Nat} {chunk filter : Tensor}
    {b b' : StreamBuffer} {e : Failure} (h : stepSpatial sums strideH strideW chunk filter axis b = (.error e, b')) :
    b' = b ∨ b.skip = 0 ∧ ∃ data joined, b.accumulate chunk axis = .ok (data, joined) ∧
      (b' = joined ∨ b' = { joined with phase := .ready }) := by
  unfold stepSpatial at h
  split at h
  · cases h
  · rename_i hskip
    split at h
    · cases h
      exact .inl rfl
    · rename_i data joined hjoin
      refine .inr ⟨Nat.eq_zero_of_not_pos hskip, data, joined, hjoin, ?_⟩
      split at h
      · cases h
        exact .inl rfl
      · split at h
        · cases h
          exact .inl rfl
        · split at h
          · cases h
          · dsimp only at h
            split at h
            · cases h
              exact .inr rfl
            · split at h
              · cases h
                exact .inr rfl
              · cases h

/-- Whether a node is a convolution of a stream along a spatial axis. -/
def StreamNode.Spatial (m : StreamNode) : Prop :=
  (∃ sums strideH strideW, m.node.op = .convolution sums strideH strideW) ∧
    (m.inputAxes.head? = some (some 1) ∨ m.inputAxes.head? = some (some 2))

namespace Session

variable {a : Analysis} {s s' : Session} {d : Delivered} {x : Nat} {m : StreamNode} {e : Failure}

/-- Whether a node keeps what it kept. -/
def Kept (s s' : Session) (m : StreamNode) : Prop := lookup? s'.states m.index = lookup? s.states m.index

/-- A chunk has come to a convolution along a spatial axis and has changed its buffer. -/
structure Reached (s s' : Session) (m : StreamNode) (sums : Contraction) (strideH strideW axis : Nat)
    (b b' : StreamBuffer) : Prop where
  op : m.node.op = .convolution sums strideH strideW
  axis_eq : m.inputAxes.head? = some (some axis)
  spatial : axis = 1 ∨ axis = 2
  before : lookup? s.states m.index = some (some b)
  after : lookup? s'.states m.index = some (some b')

/-- Whether a convolution along a spatial axis has taken its step on a chunk. -/
def Stepped (s s' : Session) (m : StreamNode) : Prop :=
  ∃ sums strideH strideW axis b b', Reached s s' m sums strideH strideW axis b b' ∧
    ∃ chunk filter r, stepSpatial sums strideH strideW chunk filter axis b = (.ok r, b')

/-- Whether a convolution along a spatial axis has joined a chunk to its buffer and no more. -/
def Joined (s s' : Session) (m : StreamNode) : Prop :=
  ∃ sums strideH strideW axis b b', Reached s s' m sums strideH strideW axis b b' ∧ b.skip = 0 ∧
    ∃ chunk data joined, b.accumulate chunk axis = .ok (data, joined) ∧
      (b' = joined ∨ b' = { joined with phase := .ready })

theorem Reached.isSpatial {sums : Contraction} {strideH strideW axis : Nat} {b b' : StreamBuffer}
    (h : Reached s s' m sums strideH strideW axis b b') : m.Spatial := by
  refine ⟨⟨_, _, _, h.op⟩, ?_⟩
  rcases h.spatial with rfl | rfl
  · exact .inl h.axis_eq
  · exact .inr h.axis_eq

theorem Stepped.isSpatial : Stepped s s' m → m.Spatial
  | ⟨_, _, _, _, _, _, h, _⟩ => h.isSpatial

theorem Joined.isSpatial : Joined s s' m → m.Spatial
  | ⟨_, _, _, _, _, _, h, _⟩ => h.isSpatial

theorem head?_inputAxes {axis : Nat} {chunk : Option Tensor} {y : StepInput}
    (h : s.stepInputs d m = .ok [⟨some axis, chunk⟩, y]) : m.inputAxes.head? = some (some axis) := by
  rw [stepInputs, mapM_eq_ok_iff, List.forall₂_cons_right_iff] at h
  obtain ⟨⟨input, axis'⟩, rest, hfirst, -, hzip⟩ := h
  cases hinputs : m.node.inputs with
  | nil =>
    rw [hinputs] at hzip
    cases hzip
  | cons input' inputs =>
    cases haxes : m.inputAxes with
    | nil =>
      rw [hinputs, haxes] at hzip
      cases hzip
    | cons axis'' axes =>
      rw [hinputs, haxes, List.zip_cons_cons, List.cons.injEq, Prod.mk.injEq] at hzip
      obtain ⟨⟨-, rfl⟩, -⟩ := hzip
      cases axis'' with
      | none =>
        obtain ⟨t, -, ht⟩ := map_eq_ok_iff.1 hfirst
        cases ht
      | some k =>
        simp only [Except.ok.injEq, StepInput.mk.injEq, Option.some.injEq, Int.natCast_inj] at hfirst
        rw [List.head?_cons, hfirst.1]

theorem kept_of_join (hsame : SameTables s s') (hs : s.isStreamed m.index = true)
    (h : (lookup? s'.states m.index).join = (lookup? s.states m.index).join) : Kept s s' m := by
  have hmem := isStreamed_iff.1 hs
  obtain ⟨st, hst⟩ := exists_lookup? hmem
  obtain ⟨st', hst'⟩ := exists_lookup? (hsame.states ▸ hmem)
  rw [hst, hst'] at h
  rw [Kept, hst, hst']
  exact congrArg some h

/-- What a step leaves of the state of a node: all, unless a chunk has come along a spatial axis. -/
theorem kept_or_reached (hsame : SameTables s s') (hs : s.isStreamed m.index = true) {inputs : List StepInput}
    (hinputs : s.stepInputs d m = .ok inputs) {r : Except Failure (Option Tensor)}
    (h : m.node.op.step inputs (lookup? s.states m.index).join = (r, (lookup? s'.states m.index).join)) :
    Kept s s' m ∨ ∃ sums strideH strideW axis b b', Reached s s' m sums strideH strideW axis b b' ∧
      ∃ chunk filter, stepSpatial sums strideH strideW chunk filter axis b = (r, b') := by
  rcases m.node.op.step_cases inputs (lookup? s.states m.index).join with
    hstep | ⟨e, hstep⟩ | ⟨sums, strideH, strideW, axis, b, chunk, filter, hop, hb, rfl, haxis, hstep⟩
  · rw [hstep, Operator.stepChunkwise] at h
    refine .inl (kept_of_join hsame hs ?_)
    split at h <;> exact (congrArg Prod.snd h).symm
  · rw [hstep] at h
    exact .inl (kept_of_join hsame hs (congrArg Prod.snd h).symm)
  · rw [hstep, Prod.mk.injEq] at h
    obtain ⟨hr, hb'⟩ := h
    exact .inr ⟨sums, strideH, strideW, axis, b, _, ⟨hop, head?_inputAxes hinputs, haxis, Option.join_eq_some_iff.1 hb,
      Option.join_eq_some_iff.1 hb'.symm⟩, chunk, filter, Prod.ext hr rfl⟩

/-- A node that has taken its part in a push keeps its state, or is a convolution that
has taken its step on a chunk along a spatial axis. -/
theorem Took.kept_or_stepped (hsame : SameTables s s') (h : Took x s d s' m) : Kept s s' m ∨ Stepped s s' m := by
  cases h with
  | source _ hkept => exact .inl hkept
  | whole _ _ _ hkept => exact .inl hkept
  | input _ _ _ _ hkept => exact .inl hkept
  | step _ hs _ inputs hinputs hstep =>
    refine (kept_or_reached hsame hs hinputs hstep).imp_right ?_
    rintro ⟨sums, strideH, strideW, axis, b, b', hreached, chunk, filter, hstep⟩
    exact ⟨sums, strideH, strideW, axis, b, b', hreached, chunk, filter, _, hstep⟩

/-- A node at which a push fails keeps its state, or has joined a chunk to its buffer. -/
theorem Stopped.kept_or_joined (hsame : SameTables s s') (hs : s.isStreamed m.index = true)
    (h : Stopped s d e s' m) : Kept s s' m ∨ Joined s s' m := by
  cases h with
  | inputs _ hkept => exact .inl hkept
  | step inputs hinputs hstep =>
    rcases kept_or_reached hsame hs hinputs hstep with hkept |
      ⟨sums, strideH, strideW, axis, b, b', hreached, chunk, filter, hstep⟩
    · exact .inl hkept
    · rcases stepSpatial_error hstep with rfl | ⟨hskip, data, joined, hjoin, hb'⟩
      · exact .inl (hreached.after.trans hreached.before.symm)
      · exact .inr ⟨sums, strideH, strideW, axis, b, b', hreached, hskip, chunk, data, joined, hjoin, hb'⟩

/-! ### Pushes that fail -/

/-- **What a push that fails leaves.** Up to some place in the plan nodes keep their states
or have taken their steps; the node there keeps its state or has joined a chunk to its
buffer; and those after it keep their states. -/
theorem StartedBy.push_error (h : s.StartedBy a) {name : String} {chunk : Tensor}
    (he : s.push name chunk = (.error e, s')) : ∃ pre post, s.plan = pre ++ post ∧
      (∀ n ∈ pre, Kept s s' n ∨ Stepped s s' n) ∧ (∀ n ∈ post.head?, Kept s s' n ∨ Joined s s' n) ∧
      ∀ n ∈ post.tail, Kept s s' n := by
  have hsame : SameTables s s' := sameTables_of_push he
  rcases push_cases s name chunk with ⟨_, -, hpush, -⟩ | ⟨x, _, _, -, hsteps, hpush, -⟩ | ⟨x, _, -, hsteps, hpush⟩
  · cases he.symm.trans hpush
    exact ⟨[], s.plan, rfl, fun n hn => (nomatch hn), fun n _ => .inl rfl, fun n _ => rfl⟩
  · cases he.symm.trans hpush
    obtain ⟨pre, m, post, d, hplan, hpre, -, hs, hstop, hpost⟩ := stepNodes_error h.inOrder noted_source hsteps
    refine ⟨pre, m :: post, hplan, fun n hn => (hpre n hn).kept_or_stepped hsame, fun n hn => ?_, hpost⟩
    cases hn
    exact hstop.kept_or_joined hsame hs
  · obtain rfl : s' = _ := congrArg Prod.snd (he.symm.trans hpush)
    refine ⟨s.plan, [], (List.append_nil _).symm, fun n hn => ?_, fun n hn => (nomatch hn), fun n hn => (nomatch hn)⟩
    exact (stepNodes_took h.inOrder noted_source hsteps n hn).kept_or_stepped hsame

theorem eq_of_lookup? {α : Type} : ∀ {entries entries' : List (Nat × α)},
    entries'.map Prod.fst = entries.map Prod.fst → (entries.map Prod.fst).Nodup →
    (∀ i ∈ entries.map Prod.fst, lookup? entries' i = lookup? entries i) → entries' = entries
  | [], [], _, _, _ => rfl
  | [], _ :: _, hkeys, _, _ => nomatch hkeys
  | _ :: _, [], hkeys, _, _ => nomatch hkeys
  | (i, y) :: entries, (j, z) :: entries', hkeys, hnodup, h => by
    simp only [List.map_cons, List.cons.injEq] at hkeys
    obtain ⟨rfl, hkeys⟩ := hkeys
    obtain ⟨hi, hnodup⟩ := List.nodup_cons.1 hnodup
    have hhead := h j (.head _)
    simp only [lookup?, List.find?_cons_of_pos, decide_true, Option.map_some, Option.some.injEq] at hhead
    refine hhead ▸ congrArg _ (eq_of_lookup? hkeys hnodup fun k hk => ?_)
    have hne : j ≠ k := fun heq => hi (heq ▸ hk)
    have htail := h k (.tail _ hk)
    simpa only [lookup?, List.find?_cons_of_neg, hne, decide_false, Bool.false_eq_true, not_false_eq_true] using htail

theorem StartedBy.eq_of_kept (h : s.StartedBy a) (hsame : SameTables s s') (hkept : ∀ m ∈ s.plan, Kept s s' m) :
    s' = s := by
  have hstates : s'.states = s.states := by
    refine eq_of_lookup? hsame.states ?_ fun i hi => ?_
    · rw [h.states]
      exact h.wellFormed.ordered.nodup.1.filter _
    · rw [h.states, List.mem_filter] at hi
      obtain ⟨n, -, hm⟩ := h.mem_plan hi.1
      exact hkept _ hm
  cases s
  cases s'
  exact Session.mk.injEq .. ▸ ⟨hsame.nodes, hsame.output, hsame.plan, hsame.values, hstates⟩

end Session

/-- A row of ones. -/
def row (n : Nat) : Tensor := .ofFn (.int .w64) [1, n] fun _ => .int 1

/-- Rows that are streamed, to which two numbers are added. -/
def shiftedRows : Model := ⟨[
  ⟨0, "x", "Placeholder", .placeholder (.ofShape none (.closed [.streamed, .any])), []⟩,
  ⟨1, "c", "Const", .const (.ofFn (.int .w64) [2] fun _ => .int 1), []⟩,
  ⟨2, "y", "Add", .add, [⟨0, none⟩, ⟨1, none⟩]⟩]⟩

/-- A pixel of some channels that are all 1. -/
def pixel (channels : Nat) : Tensor := .ofFn (.int .w64) [1, 1, 1, channels] fun _ => .int 1

/-- A column of pixels of one channel that is streamed along its height, and its convolution
with a filter of one pixel. -/
def streamedColumn : Model := ⟨[
  ⟨0, "x", "Placeholder", .placeholder (.ofShape none (.closed [.known 1, .streamed, .known 1, .known 1])), []⟩,
  ⟨1, "w", "Const", .const (pixel 1), []⟩,
  ⟨2, "y", "Conv2D", .convolution .sequential 1 1, [⟨0, none⟩, ⟨1, none⟩]⟩]⟩

namespace Analysis

open Session

/-- **What a rejected chunk leaves of a stream.** Take a session of an analysis of a model
of any operators, after any calls and any pushes, and a push that fails. If it fails
for its input, or if no convolution is streamed along a spatial axis, the session is
the same as before. Otherwise the push has come to some place in the plan. The nodes
before it keep their states or are such convolutions and have taken their steps; the
node there keeps its state or is such a convolution and has joined a chunk to its
buffer, of which nothing has been delivered or dropped; all others keep their states. -/
theorem push_fails_with {model : Model} {output : Int} {limit : Option Nat} {start : Analysis}
    (hstart : Analysis.start model output limit = .ok start) (xs : List Call) {inputs : Table Tensor} {s : Session}
    (hs : Session.start (start.afterCalls xs) inputs = .ok s) (pushes : List (String × Tensor)) {name : String}
    {chunk : Tensor} {e : Failure} {s' : Session} (he : (s.pushed pushes).push name chunk = (.error e, s')) :
    ((∃ e', (s.pushed pushes).source name = .error e') → s' = s.pushed pushes) ∧
      ((∀ m ∈ (s.pushed pushes).plan, ¬m.Spatial) → s' = s.pushed pushes) ∧
      ∃ pre post, (s.pushed pushes).plan = pre ++ post ∧
        (∀ m ∈ pre, Kept (s.pushed pushes) s' m ∨ Stepped (s.pushed pushes) s' m) ∧
        (∀ m ∈ post.head?, Kept (s.pushed pushes) s' m ∨ Joined (s.pushed pushes) s' m) ∧
        ∀ m ∈ post.tail, Kept (s.pushed pushes) s' m := by
  have hstarted : (s.pushed pushes).StartedBy (start.afterCalls xs) :=
    (startedBy_of_start (afterCalls_wellFormed (start_spec hstart).1 xs) hs).pushed pushes
  obtain ⟨pre, post, hplan, hpre, hhead, htail⟩ := hstarted.push_error he
  refine ⟨fun ⟨e', hsource⟩ => ?_, fun hspatial => ?_, pre, post, hplan, hpre, hhead, htail⟩
  · rw [push, hsource] at he
    exact (congrArg Prod.snd he).symm
  · refine hstarted.eq_of_kept (sameTables_of_push he) fun m hm => ?_
    have hnot := hspatial m hm
    rw [hplan, List.mem_append] at hm
    rcases hm with hm | hm
    · exact (hpre m hm).resolve_right fun h => hnot h.isSpatial
    · cases post with
      | nil => cases hm
      | cons n post =>
        rcases List.mem_cons.1 hm with rfl | hm
        · exact (hhead m rfl).resolve_right fun h => hnot h.isSpatial
        · exact htail m hm

/-- A row that does not fit the numbers is rejected; the session is then as it was after
the row before, which did. -/
theorem rows_rejected : ∃ a s e s', start shiftedRows 2 none = .ok a ∧
    Session.start (a.afterCalls [.act .run]) [] = .ok s ∧
    (s.pushed [("x", row 2)]).push "x" (row 3) = (.error e, s') ∧ s' = s.pushed [("x", row 2)] := by
  obtain ⟨a, s, e, s', m₀, m₁, m₂, fact, value, hstart, hs, he, hplan, h₀, h₁, h₂⟩ :
      ∃ a s e s' m₀ m₁ m₂ fact value, start shiftedRows 2 none = .ok a ∧
        Session.start (a.afterCalls [.act .run]) [] = .ok s ∧
        (s.pushed [("x", row 2)]).push "x" (row 3) = (.error e, s') ∧
        (s.pushed [("x", row 2)]).plan = [m₀, m₁, m₂] ∧ m₀.node.op = .placeholder fact ∧
        m₁.node.op = .const value ∧ m₂.node.op = .add :=
    ⟨_, _, _, _, _, _, _, _, _, rfl, rfl, rfl, rfl, rfl, rfl, rfl⟩
  refine ⟨a, s, e, s', hstart, hs, he, (push_fails_with hstart _ hs _ he).2.1 fun m hm => ?_⟩
  rw [hplan] at hm
  rintro ⟨⟨sums, strideH, strideW, hop⟩, -⟩
  simp only [List.mem_cons, List.not_mem_nil, or_false] at hm
  rcases hm with rfl | rfl | rfl
  · cases h₀.symm.trans hop
  · cases h₁.symm.trans hop
  · cases h₂.symm.trans hop

/-- A pixel of two channels is rejected by a convolution of pixels of one, but stays in its
buffer, which is ready to deliver; the pixel after it, which would have been convolved,
is rejected for it. -/
theorem column_wedged : ∃ a s e s', start streamedColumn 2 none = .ok a ∧
    Session.start (a.afterCalls [.act .run]) [] = .ok s ∧ s.push "x" (pixel 2) = (.error e, s') ∧
    lookup? s.states 2 = some (some .fresh) ∧ lookup? s'.states 2 = some (some ⟨.ready, some (pixel 2), 0⟩) ∧
    (∃ t, (s.push "x" (pixel 1)).1 = .ok (some t)) ∧ ∃ e, (s'.push "x" (pixel 1)).1 = .error e :=
  ⟨_, _, _, _, rfl, rfl, rfl, rfl, rfl, ⟨_, rfl⟩, _, rfl⟩

end Analysis

end EdgeFacts
