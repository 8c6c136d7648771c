/-
# What a push does at each node

A push lets the nodes of a plan take their steps one after the other
(`Session.stepNodes_append`). As each node comes after its producers, what its step
sees of them is what they deliver in the same push, and nothing that follows changes
it; so what a push does can be told node by node (`Session.Took`). Where a push fails
it does so at one node: the nodes before it have taken their steps, and those after it
keep what they kept (`Session.stepNodes_error`).

Key definitions: `StreamNode.InOrder`, `Session.Took`, `Session.Stopped`, `Session.deliveries`,
`Session.history`, `Session.StartedBy`.
Key theorems: `Session.stepNodes_append`, `Session.stepNodes_took`, `Session.stepNodes_error`,
`Session.push_cases`, `Analysis.startedBy_of_start`.
-/
import EdgeFacts.Proofs.Classification

namespace EdgeFacts

/-- Whether each node of a list comes once, after its producers and the nodes done before. -/
def StreamNode.InOrder : List Nat → List StreamNode → Prop
  | _, [] => True
  | done, m :: rest => m.index ∉ done ∧ m.node.producers ⊆ done ∧ InOrder (m.index :: done) rest

namespace StreamNode.InOrder

theorem nodup : ∀ {ms : List StreamNode} {done : List Nat}, InOrder done ms →
    (ms.map index).Nodup ∧ ∀ i ∈ ms.map index, i ∉ done
  | [], _, _ => ⟨.nil, fun _ hi => nomatch hi⟩
  | m :: ms, done, h => by
    obtain ⟨hn, hd⟩ := h.2.2.nodup
    refine ⟨List.nodup_cons.2 ⟨fun hi => hd _ hi (.head _), hn⟩, fun i hi => ?_⟩
    rcases List.mem_cons.1 hi with rfl | hi
    · exact h.1
    · exact fun hdone => hd i hi (.tail _ hdone)

theorem left : ∀ {pre post : List StreamNode} {done : List Nat}, InOrder done (pre ++ post) → InOrder done pre
  | [], _, _, _ => trivial
  | _ :: _, _, _, h => ⟨h.1, h.2.1, h.2.2.left⟩

theorem not_mem {pre post : List StreamNode} {m : StreamNode} {done : List Nat} (h : InOrder done (pre ++ m :: post)) :
    m.index ∉ pre.map index ∧ ∀ n ∈ post, n.index ∉ (pre ++ [m]).map index := by
  have hnodup := h.nodup.1
  rw [List.map_append, List.map_cons, List.nodup_append] at hnodup
  obtain ⟨-, hpost, hdisjoint⟩ := hnodup
  refine ⟨fun hm => hdisjoint _ hm _ (.head _) rfl, fun n hn hmem => ?_⟩
  have hnpost : n.index ∈ post.map index := List.mem_map_of_mem hn
  rw [List.map_append, List.mem_append] at hmem
  rcases hmem with hnpre | hnm
  · exact hdisjoint _ hnpre _ (.tail _ hnpost) rfl
  · exact (List.nodup_cons.1 hpost).1 (List.mem_singleton.1 hnm ▸ hnpost)

end StreamNode.InOrder

/-! ### Steps of operators -/

namespace Operator

/-- The step of an operator that computes a chunk from chunks and keeps nothing. -/
def stepChunkwise (op : Operator) (inputs : List StepInput) (state : Option StreamBuffer) :
    Except Failure (Option Tensor) × Option StreamBuffer :=
  match inputs.mapM StepInput.chunk with
  | none => (.ok none, state)
  | some chunks => (some <$> op.eval chunks, state)

/-- **A step computes a chunk from chunks**, or refuses its inputs, unless it is that of a
convolution on a chunk along a spatial axis. -/
theorem step_cases (op : Operator) (inputs : List StepInput) (state : Option StreamBuffer) :
    op.step inputs state = op.stepChunkwise inputs state ∨ (∃ e, op.step inputs state = (.error e, state)) ∨
      ∃ (sums : Contraction) (strideH strideW axis : Nat) (buffer : StreamBuffer) (chunk filter : Tensor),
        op = .convolution sums strideH strideW ∧ state = some buffer ∧
        inputs = [⟨some axis, some chunk⟩, ⟨none, some filter⟩] ∧ (axis = 1 ∨ axis = 2) ∧
        op.step inputs state = ((stepSpatial sums strideH strideW chunk filter axis buffer).1,
          some (stepSpatial sums strideH strideW chunk filter axis buffer).2) := by
  cases op with
  | convolution sums strideH strideW =>
    cases state with
    | none => exact .inl rfl
    | some buffer =>
      match inputs with
      | [⟨axis, chunk⟩, ⟨some _, filter⟩] => exact .inr (.inl ⟨_, rfl⟩)
      | [⟨axis, chunk⟩, ⟨none, none⟩] => exact .inr (.inl ⟨_, rfl⟩)
      | [⟨none, chunk⟩, ⟨none, some filter⟩] => exact .inr (.inl ⟨_, rfl⟩)
      | [⟨some axis, none⟩, ⟨none, some filter⟩] =>
        left
        simp only [step, stepConvolution]
        rfl
      | [⟨some axis, some chunk⟩, ⟨none, some filter⟩] =>
        by_cases h0 : axis = 0
        · exact h0 ▸ .inl rfl
        by_cases h1 : axis = 1
        · exact h1 ▸ .inr (.inr ⟨sums, strideH, strideW, 1, buffer, chunk, filter, rfl, rfl, rfl, .inl rfl, rfl⟩)
        by_cases h2 : axis = 2
        · exact h2 ▸ .inr (.inr ⟨sums, strideH, strideW, 2, buffer, chunk, filter, rfl, rfl, rfl, .inr rfl, rfl⟩)
        · refine .inr (.inl ⟨.because .streamedChannels, ?_⟩)
          simp only [step, stepConvolution]
      | [] | [_] | _ :: _ :: _ :: _ => exact .inr (.inl ⟨_, rfl⟩)
  | _ => exact .inl rfl

end Operator

namespace Session

open StreamNode (InOrder)

/-! ### Tables -/

section

variable {α : Type} {entries more : List (Nat × α)} {i j : Nat} {x : α}

theorem lookup?_append : lookup? (entries ++ more) i = (lookup? entries i).or (lookup? more i) := by
  rw [lookup?, List.find?_append, Option.map_or]
  rfl

theorem lookup?_singleton : lookup? [(j, x)] i = if j = i then some x else none := by
  by_cases hji : j = i <;> simp [lookup?, hji]

theorem lookup?_eq_none (h : i ∉ entries.map Prod.fst) : lookup? entries i = none := by
  cases hx : lookup? entries i with
  | none => rfl
  | some x => exact absurd (mem_of_lookup? hx) h

theorem lookup?_replace_of_ne (h : i ≠ j) : lookup? (replace entries i x) j = lookup? entries j := by
  induction entries with
  | nil => rfl
  | cons e entries ih =>
    simp only [lookup?, replace, List.map_cons, List.find?_cons] at ih ⊢
    by_cases hi : e.1 = i
    · have hj : e.1 ≠ j := hi ▸ h
      simpa [hi, h, hj] using ih
    · by_cases hj : e.1 = j
      · simp [hj, Ne.symm h]
      · simpa [hi, hj] using ih

theorem lookup?_replace_self (h : i ∈ entries.map Prod.fst) : lookup? (replace entries i x) i = some x := by
  induction entries with
  | nil => cases h
  | cons e entries ih =>
    by_cases hi : e.1 = i
    · simp [lookup?, replace, hi]
    · have htail := ih ((List.mem_cons.1 h).resolve_left (Ne.symm hi))
      simp only [lookup?, replace] at htail
      simpa [lookup?, replace, hi] using htail

end

/-! ### One node after the other -/

variable {x : Nat} {m : StreamNode} {ms : List StreamNode} {d d' : Delivered} {s s' : Session} {e : Failure}

/-- **Nodes take their steps one after the other**, as far as that succeeds. -/
theorem stepNodes_append : ∀ {pre post : List StreamNode} {d : Delivered} {s : Session},
    stepNodes x (pre ++ post) d s = match stepNodes x pre d s with
      | (.ok d', s') => stepNodes x post d' s'
      | (.error e, s') => (.error e, s')
  | [], _, _, _ => rfl
  | m :: pre, post, d, s => by
    rw [List.cons_append, stepNodes, stepNodes]
    split
    · exact stepNodes_append
    · split
      · exact stepNodes_append
      · cases s.stepInputs d m with
        | error e => rfl
        | ok inputs =>
          dsimp only
          cases (m.node.op.step inputs (lookup? s.states m.index).join).1 with
          | error e => rfl
          | ok chunk => exact stepNodes_append

theorem stepNodes_cons (x : Nat) (m : StreamNode) (rest : List StreamNode) (d : Delivered) (s : Session) :
    stepNodes x (m :: rest) d s = match stepNodes x [m] d s with
      | (.ok d', s') => stepNodes x rest d' s'
      | (.error e, s') => (.error e, s') := by
  rw [← List.singleton_append, stepNodes_append]

theorem stepNodes_cons_ok {rest : List StreamNode} (h : stepNodes x (m :: rest) d s = (.ok d', s')) :
    ∃ d₁ s₁, stepNodes x [m] d s = (.ok d₁, s₁) ∧ stepNodes x rest d₁ s₁ = (.ok d', s') := by
  rw [stepNodes_cons] at h
  rcases hm : stepNodes x [m] d s with ⟨_ | d₁, s₁⟩
  · rw [hm] at h
    cases h
  · rw [hm] at h
    exact ⟨d₁, s₁, rfl, h⟩

/-- What fails fails at one node. -/
theorem stepNodes_stop : ∀ {ms : List StreamNode} {d : Delivered} {s : Session},
    stepNodes x ms d s = (.error e, s') → ∃ pre m post d₁ s₁, ms = pre ++ m :: post ∧
      stepNodes x pre d s = (.ok d₁, s₁) ∧ stepNodes x [m] d₁ s₁ = (.error e, s')
  | [], _, _, h => by cases h
  | m :: ms, d, s, h => by
    rw [stepNodes_cons] at h
    rcases hm : stepNodes x [m] d s with ⟨_ | d₁, s₁⟩
    · rw [hm] at h
      cases h
      exact ⟨[], m, ms, d, s, rfl, rfl, hm⟩
    · rw [hm] at h
      obtain ⟨pre, n, post, d₂, s₂, rfl, hpre, hn⟩ := stepNodes_stop h
      refine ⟨m :: pre, n, post, d₂, s₂, rfl, ?_, hn⟩
      rw [stepNodes_cons, hm]
      exact hpre

/-- What becomes of the state of a node that a push comes to. -/
inductive Took (x : Nat) (s : Session) (d : Delivered) (s' : Session) (m : StreamNode) : Prop where
  /-- The input that the chunk is pushed into. -/
  | source (hx : m.index = x) (hkept : lookup? s'.states m.index = lookup? s.states m.index)
  /-- A node that is not streamed. -/
  | whole (hx : m.index ≠ x) (hs : s.isStreamed m.index = false) (hnone : delivered d m.index = none)
      (hkept : lookup? s'.states m.index = lookup? s.states m.index)
  /-- Another input of the model. -/
  | input (hx : m.index ≠ x) (hs : s.isStreamed m.index = true) (hop : m.node.op.isPlaceholder = true)
      (hnone : delivered d m.index = none) (hkept : lookup? s'.states m.index = lookup? s.states m.index)
  /-- A node that takes a step on what its producers deliver. -/
  | step (hx : m.index ≠ x) (hs : s.isStreamed m.index = true) (hop : m.node.op.isPlaceholder = false)
      (inputs : List StepInput) (hinputs : s.stepInputs d m = .ok inputs)
      (hstep : m.node.op.step inputs (lookup? s.states m.index).join =
        (.ok (delivered d m.index), (lookup? s'.states m.index).join))

/-- What becomes of the state of a node at which a push fails. -/
inductive Stopped (s : Session) (d : Delivered) (e : Failure) (s' : Session) (m : StreamNode) : Prop where
  /-- A value that the node takes whole is not there. -/
  | inputs (hinputs : s.stepInputs d m = .error e) (hkept : lookup? s'.states m.index = lookup? s.states m.index)
  /-- The step of the node fails. -/
  | step (inputs : List StepInput) (hinputs : s.stepInputs d m = .ok inputs)
      (hstep : m.node.op.step inputs (lookup? s.states m.index).join =
        (.error e, (lookup? s'.states m.index).join))

theorem delivered_eq_lookup? (d : Delivered) (i : Nat) : delivered d i = (lookup? d i).join := by
  rw [delivered, if_neg (by omega), Int.toNat_natCast]

theorem delivered_nil (i : Int) : delivered [] i = none := by
  rw [delivered]
  split <;> rfl

/-- All that one node does to what is delivered and to what is kept. -/
theorem stepNodes_singleton_ok (h : stepNodes x [m] d s = (.ok d', s')) :
    (d' = d ∧ s' = s ∧ (m.index = x ∨ s.isStreamed m.index = false)) ∨
    (m.index ≠ x ∧ s.isStreamed m.index = true ∧ m.node.op.isPlaceholder = true ∧
      d' = d ++ [(m.index, none)] ∧ s' = s) ∨
    (m.index ≠ x ∧ s.isStreamed m.index = true ∧ m.node.op.isPlaceholder = false ∧
      ∃ inputs chunk state, s.stepInputs d m = .ok inputs ∧
        m.node.op.step inputs (lookup? s.states m.index).join = (.ok chunk, state) ∧
        d' = d ++ [(m.index, chunk)] ∧ s' = { s with states := replace s.states m.index state }) := by
  rw [stepNodes] at h
  split at h
  · rename_i hskip
    cases h
    exact .inl ⟨rfl, rfl, by simpa using hskip⟩
  · rename_i hgo
    obtain ⟨hx, hs⟩ : m.index ≠ x ∧ s.isStreamed m.index = true := by simpa using hgo
    split at h
    · rename_i hop
      cases h
      exact .inr (.inl ⟨hx, hs, hop, rfl, rfl⟩)
    · rename_i hop
      split at h
      · cases h
      · rename_i inputs hinputs
        obtain ⟨result, state, hstep⟩ : ∃ result state,
            m.node.op.step inputs (lookup? s.states m.index).join = (result, state) := ⟨_, _, rfl⟩
        simp only [hstep] at h
        cases result with
        | error e => cases h
        | ok chunk =>
          cases h
          exact .inr (.inr ⟨hx, hs, by simpa using hop, inputs, chunk, state, hinputs, hstep, rfl, rfl⟩)

theorem stepNodes_singleton_error (h : stepNodes x [m] d s = (.error e, s')) :
    m.index ≠ x ∧ s.isStreamed m.index = true ∧ ((s.stepInputs d m = .error e ∧ s' = s) ∨
      ∃ inputs state, s.stepInputs d m = .ok inputs ∧
        m.node.op.step inputs (lookup? s.states m.index).join = (.error e, state) ∧
        s' = { s with states := replace s.states m.index state }) := by
  rw [stepNodes] at h
  split at h
  · cases h
  · rename_i hgo
    obtain ⟨hx, hs⟩ : m.index ≠ x ∧ s.isStreamed m.index = true := by simpa using hgo
    refine ⟨hx, hs, ?_⟩
    split at h
    · cases h
    · split at h
      · rename_i hinputs
        cases h
        exact .inl ⟨hinputs, rfl⟩
      · rename_i inputs hinputs
        obtain ⟨result, state, hstep⟩ : ∃ result state,
            m.node.op.step inputs (lookup? s.states m.index).join = (result, state) := ⟨_, _, rfl⟩
        simp only [hstep] at h
        cases result with
        | ok chunk => cases h
        | error e =>
          cases h
          exact .inr ⟨inputs, state, hinputs, hstep, rfl⟩

/-- What a node delivers is noted once, after what was noted before it. -/
theorem stepNodes_delivered : ∀ {ms : List StreamNode} {d : Delivered} {s : Session},
    stepNodes x ms d s = (.ok d', s') → ∃ more, d' = d ++ more ∧ ∀ i ∈ more.map Prod.fst, i ≠ x ∧ i ∈ ms.map (·.index)
  | [], _, _, h => by
    cases h
    exact ⟨[], (List.append_nil _).symm, fun _ hi => nomatch hi⟩
  | m :: ms, d, s, h => by
    obtain ⟨d₁, s₁, hm, hrest⟩ := stepNodes_cons_ok h
    obtain ⟨more, rfl, hmore⟩ := stepNodes_delivered hrest
    have htail : ∀ i ∈ more.map Prod.fst, i ≠ x ∧ i ∈ (m :: ms).map (·.index) :=
      fun i hi => ⟨(hmore i hi).1, .tail _ (hmore i hi).2⟩
    have hnoted (hx : m.index ≠ x) (chunk : Option Tensor) : ∃ more', d ++ [(m.index, chunk)] ++ more = d ++ more' ∧
        ∀ i ∈ more'.map Prod.fst, i ≠ x ∧ i ∈ (m :: ms).map (·.index) := by
      refine ⟨(m.index, chunk) :: more, List.append_assoc .., fun i hi => ?_⟩
      rcases List.mem_cons.1 hi with rfl | hi
      · exact ⟨hx, .head _⟩
      · exact htail i hi
    rcases stepNodes_singleton_ok hm with ⟨rfl, -, -⟩ | ⟨hx, -, -, rfl, -⟩ | ⟨hx, -, -, _, chunk, _, -, -, rfl, -⟩
    · exact ⟨more, rfl, htail⟩
    · exact hnoted hx none
    · exact hnoted hx chunk

theorem stepNodes_lookup? (h : stepNodes x ms d s = (.ok d', s')) {i : Nat} (hi : i = x ∨ i ∉ ms.map (·.index)) :
    lookup? d' i = lookup? d i := by
  obtain ⟨more, rfl, hmore⟩ := stepNodes_delivered h
  have hnot : i ∉ more.map Prod.fst := fun hmem => hi.elim (hmore i hmem).1 fun hi => hi (hmore i hmem).2
  rw [lookup?_append, lookup?_eq_none hnot, Option.or_none]

theorem stepNodes_kept {i : Nat} : ∀ {ms : List StreamNode} {d : Delivered} {s : Session}, i ∉ ms.map (·.index) →
    lookup? (stepNodes x ms d s).2.states i = lookup? s.states i
  | [], _, _, _ => rfl
  | m :: ms, d, s, hi => by
    obtain ⟨him, hims⟩ := List.ne_and_not_mem_of_not_mem_cons hi
    have hreplace (state : Option StreamBuffer) :
        lookup? (replace s.states m.index state) i = lookup? s.states i := lookup?_replace_of_ne (Ne.symm him)
    rw [stepNodes]
    split
    · exact stepNodes_kept hims
    · split
      · exact stepNodes_kept hims
      · split
        · rfl
        · split
          split
          · exact hreplace _
          · exact (stepNodes_kept hims).trans (hreplace _)

theorem kept_of_stepNodes {r : Except Failure Delivered} (h : stepNodes x ms d s = (r, s')) {i : Nat}
    (hi : i ∉ ms.map (·.index)) : lookup? s'.states i = lookup? s.states i := by
  have hkept : lookup? (stepNodes x ms d s).2.states i = lookup? s.states i := stepNodes_kept hi
  rwa [h] at hkept

theorem sameTables_of_stepNodes {r : Except Failure Delivered} (h : stepNodes x ms d s = (r, s')) :
    SameTables s s' := by
  have hsame : SameTables s (stepNodes x ms d s).2 := stepNodes_sameTables
  rwa [h] at hsame

theorem SameTables.stepInputs (h : SameTables s s') (d : Delivered) (m : StreamNode) :
    s'.stepInputs d m = s.stepInputs d m := by
  simp only [Session.stepInputs, h.valueOf]

theorem stepInputs_congr (h : ∀ p ∈ m.node.producers, lookup? d p = lookup? d' p) :
    s.stepInputs d m = s.stepInputs d' m := by
  refine mapM_congr fun y hy => ?_
  obtain ⟨input, axis⟩ := y
  cases axis with
  | none => rfl
  | some k =>
    have hp := h _ (List.mem_map_of_mem (List.of_mem_zip hy).1)
    have hdelivered : delivered d input.producer = delivered d' input.producer := by
      rw [delivered, delivered, hp]
    simp only [hdelivered]

/-- What becomes of a node depends on the session before through its own state. -/
theorem Took.of_before {s₁ : Session} (h : SameTables s s₁)
    (hkept : lookup? s₁.states m.index = lookup? s.states m.index) (ht : Took x s₁ d s' m) : Took x s d s' m := by
  cases ht with
  | source hx hstate => exact .source hx (hstate.trans hkept)
  | whole hx hs hnone hstate => exact .whole hx (h.isStreamed _ ▸ hs) hnone (hstate.trans hkept)
  | input hx hs hop hnone hstate => exact .input hx (h.isStreamed _ ▸ hs) hop hnone (hstate.trans hkept)
  | step hx hs hop inputs hinputs hstep =>
    exact .step hx (h.isStreamed _ ▸ hs) hop inputs (h.stepInputs d m ▸ hinputs) (hkept ▸ hstep)

/-- What becomes of a node tells of the session after its own state only. -/
theorem Took.of_after {s₁ : Session} (hkept : lookup? s'.states m.index = lookup? s₁.states m.index)
    (ht : Took x s d s₁ m) : Took x s d s' m := by
  cases ht with
  | source hx hstate => exact .source hx (hkept.trans hstate)
  | whole hx hs hnone hstate => exact .whole hx hs hnone (hkept.trans hstate)
  | input hx hs hop hnone hstate => exact .input hx hs hop hnone (hkept.trans hstate)
  | step hx hs hop inputs hinputs hstep => exact .step hx hs hop inputs hinputs (hkept ▸ hstep)

/-- What becomes of a node depends on what it and its producers deliver. -/
theorem Took.of_deliveries (hself : lookup? d' m.index = lookup? d m.index)
    (hproducers : ∀ p ∈ m.node.producers, lookup? d' p = lookup? d p) (ht : Took x s d s' m) : Took x s d' s' m := by
  have hdelivered : delivered d' m.index = delivered d m.index := by
    rw [delivered_eq_lookup?, delivered_eq_lookup?, hself]
  cases ht with
  | source hx hkept => exact .source hx hkept
  | whole hx hs hnone hkept => exact .whole hx hs (hdelivered.trans hnone) hkept
  | input hx hs hop hnone hkept => exact .input hx hs hop (hdelivered.trans hnone) hkept
  | step hx hs hop inputs hinputs hstep =>
    exact .step hx hs hop inputs ((stepInputs_congr hproducers).trans hinputs) (hdelivered ▸ hstep)

/-- What one node has taken its part in, if nothing has been noted of it before. -/
theorem took_singleton (hm : m.index ∉ d.map Prod.fst ∨ m.index = x) (hself : m.index ∉ m.node.producers)
    (h : stepNodes x [m] d s = (.ok d', s')) : Took x s d' s' m := by
  have hfresh (hx : m.index ≠ x) : lookup? d m.index = none := lookup?_eq_none (hm.resolve_right hx)
  have hnoted (hx : m.index ≠ x) (chunk : Option Tensor) : delivered (d ++ [(m.index, chunk)]) m.index = chunk := by
    rw [delivered_eq_lookup?, lookup?_append, hfresh hx, lookup?_singleton, if_pos rfl]
    rfl
  rcases stepNodes_singleton_ok h with ⟨rfl, rfl, hskip⟩ | ⟨hx, hs, hop, rfl, rfl⟩ |
    ⟨hx, hs, hop, inputs, chunk, state, hinputs, hstep, rfl, rfl⟩
  · by_cases hx : m.index = x
    · exact .source hx rfl
    · refine .whole hx (hskip.resolve_left hx) ?_ rfl
      rw [delivered_eq_lookup?, hfresh hx]
      rfl
  · exact .input hx hs hop (hnoted hx none) rfl
  · refine .step hx hs hop inputs ?_ ?_
    · refine (stepInputs_congr fun p hp => ?_).trans hinputs
      have hpm : m.index ≠ p := fun heq => hself (heq ▸ hp)
      rw [lookup?_append, lookup?_singleton, if_neg hpm, Option.or_none]
    · rw [hnoted hx chunk, lookup?_replace_self (isStreamed_iff.1 hs)]
      exact hstep

/-! ### All nodes -/

/-- **What a push does, node by node.** Where the nodes of a plan come after their
producers and take their steps, each takes its step on what its producers deliver in all. -/
theorem stepNodes_took : ∀ {ms : List StreamNode} {done : List Nat} {d : Delivered} {s : Session},
    InOrder done ms → (∀ i ∈ d.map Prod.fst, i = x ∨ i ∈ done) → stepNodes x ms d s = (.ok d', s') →
    ∀ m ∈ ms, Took x s d' s' m
  | [], _, _, _, _, _, _, _, hn => nomatch hn
  | m :: ms, done, d, s, hin, hnoted, h, n, hn => by
    obtain ⟨d₁, s₁, hm, hrest⟩ := stepNodes_cons_ok h
    obtain ⟨hnodup, hlater⟩ := hin.2.2.nodup
    have hsame : SameTables s s₁ := sameTables_of_stepNodes hm
    rcases List.mem_cons.1 hn with rfl | hn
    · -- what comes later changes neither its state nor what it and its producers deliver
      have hnot {p : Nat} (hp : p ∈ n.index :: done) : p ∉ ms.map (·.index) := fun hmem => hlater p hmem hp
      have hkept : lookup? s'.states n.index = lookup? s₁.states n.index := kept_of_stepNodes hrest (hnot (.head _))
      have hself : n.index ∉ n.node.producers := fun hp => hin.1 (hin.2.1 hp)
      have htook := took_singleton (Decidable.or_iff_not_imp_right.2 fun hx hmem =>
        (hnoted _ hmem).elim hx hin.1) hself hm
      exact (htook.of_after hkept).of_deliveries (stepNodes_lookup? hrest (.inr (hnot (.head _))))
        fun p hp => stepNodes_lookup? hrest (.inr (hnot (.tail _ (hin.2.1 hp))))
    · have hne : n.index ≠ m.index := fun heq => hlater _ (List.mem_map_of_mem hn) (heq ▸ .head _)
      have hkept : lookup? s₁.states n.index = lookup? s.states n.index :=
        kept_of_stepNodes hm fun hmem => hne (List.mem_singleton.1 hmem)
      refine (stepNodes_took hin.2.2 (fun i hi => ?_) hrest n hn).of_before hsame hkept
      obtain ⟨more, rfl, hmore⟩ := stepNodes_delivered hm
      rw [List.map_append, List.mem_append] at hi
      rcases hi with hi | hi
      · exact (hnoted i hi).imp_right (.tail _)
      · exact .inr (List.mem_singleton.1 (hmore i hi).2 ▸ .head _)

/-- **Where a push fails.** The nodes before the one it fails at have taken their steps,
and those after it keep what they kept. -/
theorem stepNodes_error {done : List Nat} (hin : InOrder done ms) (hnoted : ∀ i ∈ d.map Prod.fst, i = x ∨ i ∈ done)
    (h : stepNodes x ms d s = (.error e, s')) : ∃ pre m post d₁, ms = pre ++ m :: post ∧
      (∀ n ∈ pre, Took x s d₁ s' n) ∧ m.index ≠ x ∧ s.isStreamed m.index = true ∧ Stopped s d₁ e s' m ∧
      ∀ n ∈ post, lookup? s'.states n.index = lookup? s.states n.index := by
  obtain ⟨pre, m, post, d₁, s₁, rfl, hpre, hm⟩ := stepNodes_stop h
  obtain ⟨hmpre, hpost⟩ := hin.not_mem
  obtain ⟨hx, hs, hcase⟩ := stepNodes_singleton_error hm
  have hsame : SameTables s s₁ := sameTables_of_stepNodes hpre
  have hpm : stepNodes x (pre ++ [m]) d s = (.error e, s') := by
    rw [stepNodes_append, hpre]
    exact hm
  refine ⟨pre, m, post, d₁, rfl, fun n hn => ?_, hx, hsame.isStreamed _ ▸ hs, ?_,
    fun n hn => kept_of_stepNodes hpm (hpost n hn)⟩
  · refine (stepNodes_took hin.left hnoted hpre n hn).of_after (kept_of_stepNodes hm fun hmem => ?_)
    have heq : n.index = m.index := List.mem_singleton.1 hmem
    exact hmpre (heq ▸ List.mem_map_of_mem hn)
  · rcases hcase with ⟨hinputs, rfl⟩ | ⟨inputs, state, hinputs, hstep, rfl⟩
    · exact .inputs (hsame.stepInputs d₁ m ▸ hinputs) (kept_of_stepNodes hpre hmpre)
    · refine .step inputs (hsame.stepInputs d₁ m ▸ hinputs) ?_
      rw [lookup?_replace_self (isStreamed_iff.1 hs), ← kept_of_stepNodes hpre hmpre]
      exact hstep

/-! ### Pushes -/

theorem source_eq_ok {name : String} (h : s.source name = .ok x) :
    s.isStreamed x = true ∧ ∃ n, s.nodes[x]? = some n ∧ n.op.isPlaceholder = true := by
  unfold source at h
  split at h
  · cases h
  · split at h
    · cases h
    · rename_i n _ hgo
      obtain ⟨-, hs⟩ := not_or.1 hgo
      split at h
      · rename_i hop
        cases h
        obtain ⟨n, hn, hop⟩ := Option.map_eq_some_iff.1 hop
        exact ⟨by simpa using hs, n, hn, hop⟩
      · cases h

theorem sameTables_of_push {name : String} {chunk : Tensor} {r : Except Failure (Option Tensor)}
    (h : s.push name chunk = (r, s')) : SameTables s s' := by
  have hsame := push_sameTables s name chunk
  rwa [h] at hsame

/-- What the nodes of the plan deliver at a push, if all of them take their steps. -/
def deliveries (s : Session) (name : String) (chunk : Tensor) : Delivered :=
  match s.source name with
  | .error _ => []
  | .ok x =>
    match (stepNodes x s.plan [(x, some chunk)] s).1 with
    | .error _ => []
    | .ok d => d

/-- What the nodes of the plan deliver at each of some pushes. -/
def history (s : Session) : List (String × Tensor) → List Delivered
  | [] => []
  | (name, chunk) :: rest => s.deliveries name chunk :: (s.push name chunk).2.history rest

/-- How a push comes out: there is no such input, a node fails, or all take their steps. -/
theorem push_cases (s : Session) (name : String) (chunk : Tensor) :
    (∃ e, s.source name = .error e ∧ s.push name chunk = (.error e, s) ∧ s.deliveries name chunk = []) ∨
    (∃ x e s', s.source name = .ok x ∧ stepNodes x s.plan [(x, some chunk)] s = (.error e, s') ∧
      s.push name chunk = (.error e, s') ∧ s.deliveries name chunk = []) ∨
    ∃ x s', s.source name = .ok x ∧
      stepNodes x s.plan [(x, some chunk)] s = (.ok (s.deliveries name chunk), s') ∧
      s.push name chunk = (if 0 ≤ s.output ∧ s.isStreamed s.output.toNat then
        .ok (delivered (s.deliveries name chunk) s.output) else .error (.because .wholeResult), s') := by
  unfold push deliveries
  cases s.source name with
  | error e => exact .inl ⟨e, rfl, rfl, rfl⟩
  | ok x =>
    rcases hsteps : stepNodes x s.plan [(x, some chunk)] s with ⟨e | d, s'⟩
    · refine .inr (.inl ⟨x, e, s', rfl, hsteps, ?_⟩)
      simp only [hsteps, and_self]
    · have hsame : SameTables s s' := sameTables_of_stepNodes hsteps
      refine .inr (.inr ⟨x, s', rfl, ?_⟩)
      simp only [hsteps, hsame.output, hsame.isStreamed, true_and]
      split <;> rfl

theorem noted_source {chunk : Option Tensor} {done : List Nat} : ∀ i ∈ [(x, chunk)].map Prod.fst, i = x ∨ i ∈ done :=
  fun _ hi => .inl (List.mem_singleton.1 hi)

/-- What nodes deliver at a push is nothing, or comes of all nodes taking their steps. -/
theorem deliveries_took (hin : InOrder [] s.plan) (name : String) (chunk : Tensor) :
    s.deliveries name chunk = [] ∨ ∃ x, s.source name = .ok x ∧
      ∀ m ∈ s.plan, Took x s (s.deliveries name chunk) (s.push name chunk).2 m := by
  rcases push_cases s name chunk with ⟨-, -, -, hd⟩ | ⟨-, -, -, -, -, -, hd⟩ | ⟨x, s', hsource, hsteps, hpush⟩
  · exact .inl hd
  · exact .inl hd
  · rw [hpush]
    exact .inr ⟨x, hsource, stepNodes_took hin noted_source hsteps⟩

/-- What one push keeps and lets nodes deliver, each of some pushes does. -/
theorem forall_history {P : Session → Prop} {Q : Delivered → Prop}
    (hP : ∀ s name chunk, P s → P (s.push name chunk).2) (hQ : ∀ s name chunk, P s → Q (s.deliveries name chunk)) :
    ∀ {pushes : List (String × Tensor)} {s : Session}, P s → ∀ d ∈ s.history pushes, Q d
  | [], _, _, _, hd => nomatch hd
  | (name, chunk) :: rest, s, hs, d, hd => by
    rcases List.mem_cons.1 hd with rfl | hd
    · exact hQ s name chunk hs
    · exact forall_history hP hQ (hP s name chunk hs) d hd

end Session

/-! ### Sessions that an analysis starts -/

/-- Whether a session may be one that an analysis has started, at any time. -/
structure Session.StartedBy (s : Session) (a : Analysis) : Prop extends s.Follows a a.plan where
  wellFormed : Analysis.WellFormed a
  nodes : s.nodes = a.nodes
  /-- What is not streamed takes nothing that is. -/
  whole : ∀ i ∈ a.plan, a.outputAxis i = none → ∀ e ∈ a.edgesInto i, e.axis = none

namespace Analysis

theorem addNode_nodes {a : Analysis} {inputs : Table Tensor} {s s' : Session} {i : Nat}
    (h : Session.addNode a inputs s i = .ok s') : s'.nodes = s.nodes := by
  simp only [Session.addNode, bind_eq_ok_iff] at h
  obtain ⟨n, -, f, -, js, -, fs, -, h⟩ := h
  split at h
  · cases h
    rfl
  · split at h
    · cases h
    · simp only [bind_eq_ok_iff, pure_eq_ok] at h
      obtain ⟨v, -, h⟩ := h
      cases h
      rfl

theorem nodes_of_start {a : Analysis} {inputs : Table Tensor} {s : Session} (h : Session.start a inputs = .ok s) :
    s.nodes = a.nodes := by
  have hall : ∀ {plan : List Nat} {s s' : Session}, plan.foldlM (Session.addNode a inputs) s = .ok s' →
      s'.nodes = s.nodes := by
    intro plan
    induction plan with
    | nil =>
      intro s s' h
      cases h
      rfl
    | cons i plan ih =>
      intro s s' h
      rw [List.foldlM_cons, bind_eq_ok_iff] at h
      obtain ⟨s₁, hadd, h⟩ := h
      exact (ih h).trans (addNode_nodes hadd)
  exact hall h

/-- **Sessions start so** from any well-formed analysis. -/
theorem startedBy_of_start {a : Analysis} (hw : WellFormed a) {inputs : Table Tensor} {s : Session}
    (h : Session.start a inputs = .ok s) : s.StartedBy a where
  toFollows := follows_of_start hw h
  wellFormed := hw
  nodes := nodes_of_start h
  whole _ hi hnone := whole_of_start hw h (fun j hj => by
    obtain ⟨s₁, s₂, hadd⟩ := exists_addNode h j hj
    exact exists_outputFact_of_addNode hadd) hi hnone

end Analysis

namespace Session.StartedBy

variable {a : Analysis} {s : Session} (h : s.StartedBy a)
include h

theorem of_sameTables {s' : Session} (hsame : SameTables s s') : s'.StartedBy a where
  toFollows := hsame.follows h.toFollows
  wellFormed := h.wellFormed
  nodes := hsame.nodes.trans h.nodes
  whole := h.whole

theorem push (name : String) (chunk : Tensor) : (s.push name chunk).2.StartedBy a :=
  h.of_sameTables (push_sameTables s name chunk)

theorem pushed (pushes : List (String × Tensor)) : (s.pushed pushes).StartedBy a := by
  induction pushes generalizing s with
  | nil => exact h
  | cons push pushes ih => exact ih (h.push push.1 push.2)

theorem inOrder : StreamNode.InOrder [] s.plan := by
  have hall : ∀ {plan done : List Nat} {ms : List StreamNode}, Plan.Ordered (Plan.producersAt a.nodes) done plan →
      List.Forall₂ (fun i m => ∃ n, a.nodes[i]? = some n ∧ m = a.takenNode i n) plan ms →
      StreamNode.InOrder done ms := by
    intro plan done ms ho hms
    induction hms generalizing done with
    | nil => trivial
    | cons hm _ ih =>
      obtain ⟨n, hn, rfl⟩ := hm
      exact ⟨ho.1, Plan.producersAt_eq hn ▸ ho.2.1, ih ho.2.2⟩
  exact hall h.wellFormed.ordered h.plan

theorem isPlaceholder_source {name : String} {x : Nat} (hsource : s.source name = .ok x) {m : StreamNode}
    (hm : m ∈ s.plan) (hx : m.index = x) : m.node.op.isPlaceholder = true := by
  obtain ⟨-, n, hn, hop⟩ := source_eq_ok hsource
  obtain ⟨i, -, n', hn', rfl⟩ := h.exists_taken hm
  rw [h.nodes, ← hx] at hn
  cases hn'.symm.trans hn
  exact hop

theorem isStreamed_of_axis {m : StreamNode} (hm : m ∈ s.plan) {k : Nat} (hk : some k ∈ m.inputAxes) :
    s.isStreamed m.index = true := by
  obtain ⟨i, hi, n, hn, rfl⟩ := h.exists_taken hm
  obtain ⟨e, he, haxis⟩ := List.mem_map.1 hk
  have hsome : a.isStreamed i ≠ false := by
    rw [Ne, Analysis.isStreamed_eq_false]
    intro hnone
    rw [h.whole i hi hnone e he] at haxis
    cases haxis
  exact (h.toFollows.isStreamed hi).trans (Bool.not_eq_false _ ▸ hsome)

end Session.StartedBy

end EdgeFacts
