/-
# What is streamed and what is whole

A session takes a node as streamed if some edge out of it is known to be, and a
node that consumes it looks at its own edge only. The two views agree where all
edges out of a node have one shape, and they do once a run has settled, unless the
node is an input of the model. So if each streamed input is streamed towards all
its consumers (`Analysis.StreamsToAll`), which it is where its declaration says so
(`Analysis.streamsToAll_of_declared`), a session splits the nodes well: what is not
streamed needs nothing that is, and what streamed nodes take whole is there
(`Session.Split`). Nothing is then looked up in vain, neither at the start nor in
any push (`Analysis.session_splits`). If an input is not streamed towards all its
consumers, no session splits well (`Analysis.streamsToAll_of_split`), and a push may
look for a value that is not there (`Analysis.fork_fails`).

Key definitions: `Failure.IsStreaming`, `Operator.Fails`, `Analysis.StreamsToAll`,
`Session.Follows`, `Session.Split`, `Session.pushed`.
Key theorems: `Session.push_follows`, `Session.push_fails`, `Analysis.start_cases`,
`Analysis.session_splits`, `Analysis.streamsToAll_of_split`.
-/
import EdgeFacts.Failure.Wording
import EdgeFacts.Proofs.Agreement
import EdgeFacts.Proofs.KeyFree
import EdgeFacts.Proofs.Streaming

namespace EdgeFacts

/-! ### Failures -/

/-- Whether a failure is one of streaming. -/
def Failure.IsStreaming (e : Failure) : Prop := ∃ c : Cause, e = .because c ∧ c.kind = .streaming

/-- Whether a failure of a session is one of streaming or one of an operator of its
nodes, and not that something was looked up in vain. -/
def Failure.OfSession (nodes : List Node) (e : Failure) : Prop :=
  e ≠ .primitive .noSuchKey ∧ (e.IsStreaming ∨ ∃ n ∈ nodes, n.op.Fails e)

theorem Failure.IsStreaming.ofSession {e : Failure} (h : e.IsStreaming) (nodes : List Node) : e.OfSession nodes := by
  refine ⟨?_, .inl h⟩
  obtain ⟨c, rfl, -⟩ := h
  exact fun h => nomatch h

theorem Operator.Fails.ofSession {nodes : List Node} {n : Node} (hn : n ∈ nodes) (hop : n.op.IsLibrary)
    {e : Failure} (h : n.op.Fails e) : e.OfSession nodes := ⟨h.keyFree hop, .inr ⟨n, hn, h⟩⟩

namespace Session

/-! ### Tables of a session -/

theorem exists_lookup? {α : Type} {entries : List (Nat × α)} {i : Nat} (h : i ∈ entries.map Prod.fst) :
    ∃ x, lookup? entries i = some x := by
  obtain ⟨e, he, rfl⟩ := List.mem_map.1 h
  have hsome : (entries.find? (·.1 = e.1)).isSome = true := List.find?_isSome.2 ⟨e, he, by simp⟩
  obtain ⟨d, hd⟩ := Option.isSome_iff_exists.1 hsome
  exact ⟨d.2, by rw [lookup?, hd, Option.map_some]⟩

theorem mem_of_lookup? {α : Type} {entries : List (Nat × α)} {i : Nat} {x : α} (h : lookup? entries i = some x) :
    i ∈ entries.map Prod.fst := by
  obtain ⟨e, he, -⟩ := Option.map_eq_some_iff.1 h
  have hi : e.1 = i := by simpa using List.find?_some he
  exact hi ▸ List.mem_map_of_mem (List.mem_of_find?_eq_some he)

theorem map_fst_replace {α : Type} (entries : List (Nat × α)) (i : Nat) (x : α) :
    (replace entries i x).map Prod.fst = entries.map Prod.fst := by
  rw [replace, List.map_map]
  refine List.map_congr_left fun e _ => ?_
  by_cases he : e.1 = i
  · simp [he]
  · simp [he]

/-- A value is there exactly for the numbers of the table. -/
theorem exists_valueOf_iff {s : Session} {i : Nat} : (∃ t, s.valueOf i = .ok t) ↔ i ∈ s.values.map Prod.fst := by
  rw [valueOf, if_neg (by omega), Int.toNat_natCast]
  constructor
  · rintro ⟨t, ht⟩
    exact mem_of_lookup? (orFail_eq_ok_iff.1 ht)
  · intro hi
    obtain ⟨t, ht⟩ := exists_lookup? hi
    exact ⟨t, orFail_eq_ok_iff.2 ht⟩

theorem isStreamed_iff {s : Session} {i : Nat} : s.isStreamed i = true ↔ i ∈ s.states.map Prod.fst := by
  simp [isStreamed, List.mem_map]

/-- Whether all that a node takes whole is there. -/
def Stored (s : Session) (m : StreamNode) : Prop :=
  ∀ x ∈ m.node.inputs.zip m.inputAxes, x.2 = none → ∃ t, s.valueOf x.1.producer = .ok t

/-! ### Pushes keep the tables -/

/-- Whether two sessions differ in nothing but what is kept between chunks. -/
structure SameTables (s s' : Session) : Prop where
  nodes : s'.nodes = s.nodes
  output : s'.output = s.output
  plan : s'.plan = s.plan
  values : s'.values = s.values
  states : s'.states.map Prod.fst = s.states.map Prod.fst

theorem SameTables.refl (s : Session) : SameTables s s := ⟨rfl, rfl, rfl, rfl, rfl⟩

theorem SameTables.trans {s t u : Session} (h : SameTables s t) (k : SameTables t u) : SameTables s u :=
  ⟨k.nodes.trans h.nodes, k.output.trans h.output, k.plan.trans h.plan, k.values.trans h.values,
    k.states.trans h.states⟩

theorem sameTables_replace (s : Session) (i : Nat) (state : Option StreamBuffer) :
    SameTables s { s with states := replace s.states i state } :=
  ⟨rfl, rfl, rfl, rfl, map_fst_replace _ _ _⟩

section

variable {s s' : Session} (h : SameTables s s')
include h

theorem SameTables.isStreamed (i : Nat) : s'.isStreamed i = s.isStreamed i := by
  rw [Bool.eq_iff_iff, isStreamed_iff, isStreamed_iff, h.states]

theorem SameTables.valueOf (p : Int) : s'.valueOf p = s.valueOf p := by
  rw [Session.valueOf, Session.valueOf, h.values]

theorem SameTables.stored {m : StreamNode} (hm : s.Stored m) : s'.Stored m := by
  intro x hx hnone
  rw [h.valueOf]
  exact hm x hx hnone

end

theorem stepNodes_sameTables {source : Nat} : ∀ {ms : List StreamNode} {d : Delivered} {s : Session},
    SameTables s (stepNodes source ms d s).2
  | [], d, s => .refl s
  | m :: ms, d, s => by
    rw [stepNodes]
    split
    · exact stepNodes_sameTables
    · split
      · exact stepNodes_sameTables
      · split
        · exact .refl s
        · split
          have hstep := sameTables_replace s m.index
          split
          · exact hstep _
          · exact (hstep _).trans stepNodes_sameTables

theorem push_sameTables (s : Session) (name : String) (chunk : Tensor) :
    SameTables s (s.push name chunk).2 := by
  unfold push
  split
  · exact .refl s
  · rename_i source _
    have hsteps : SameTables s (stepNodes source s.plan [(source, some chunk)] s).2 := stepNodes_sameTables
    split
    · rename_i h
      rwa [h] at hsteps
    · rename_i h
      rw [h] at hsteps
      split <;> exact hsteps

/-! ### What pushes fail for -/

theorem exists_stepInputs {s : Session} {m : StreamNode} (h : s.Stored m) (d : Delivered) :
    ∃ inputs, s.stepInputs d m = .ok inputs := by
  refine exists_mapM_eq_ok fun x hx => ?_
  obtain ⟨input, axis⟩ := x
  cases axis with
  | none =>
    obtain ⟨t, ht⟩ : ∃ t, s.valueOf input.producer = .ok t := h _ hx rfl
    exact ⟨⟨none, some t⟩, by simp only [ht, Except.map]⟩
  | some k => exact ⟨_, rfl⟩

theorem stepNodes_fails {source : Nat} {e : Failure} : ∀ {ms : List StreamNode} {d : Delivered} {s : Session},
    (∀ m ∈ ms, s.isStreamed m.index = true → s.Stored m) → (stepNodes source ms d s).1 = .error e →
    ∃ m ∈ ms, m.node.op.Fails e
  | [], d, s, _, he => nomatch he
  | m :: ms, d, s, h, he => by
    have hrest {d' : Delivered} {s' : Session} (hsame : SameTables s s')
        (he : (stepNodes source ms d' s').1 = .error e) : ∃ m' ∈ m :: ms, m'.node.op.Fails e := by
      obtain ⟨m', hm', hfails⟩ := stepNodes_fails (fun m' hm' hs =>
        hsame.stored (h m' (.tail _ hm') (hsame.isStreamed _ ▸ hs))) he
      exact ⟨m', .tail _ hm', hfails⟩
    rw [stepNodes] at he
    split at he
    · exact hrest (.refl s) he
    · rename_i hgo
      split at he
      · exact hrest (.refl s) he
      · have hs : s.isStreamed m.index = true := by simpa using (not_or.1 hgo).2
        obtain ⟨inputs, hinputs⟩ := exists_stepInputs (h m (.head _) hs) d
        rw [hinputs] at he
        dsimp only at he
        split at he
        · rename_i hresult
          cases he
          exact ⟨m, .head _, .inr ⟨_, _, hresult⟩⟩
        · exact hrest (sameTables_replace s _ _) he

theorem source_fails {s : Session} {name : String} {e : Failure} (h : s.source name = .error e) :
    e.IsStreaming := by
  unfold source at h
  split at h
  · cases h
    exact ⟨_, rfl, rfl⟩
  · split at h
    · cases h
      exact ⟨_, rfl, rfl⟩
    · split at h
      · cases h
      · cases h
        exact ⟨_, rfl, rfl⟩

/-- **A push fails for reasons of streaming or for an operator**, if all that streamed
nodes take whole is there. -/
theorem push_fails {s : Session} (h : ∀ m ∈ s.plan, s.isStreamed m.index = true → s.Stored m) {name : String}
    {chunk : Tensor} {e : Failure} (he : (s.push name chunk).1 = .error e) :
    e.IsStreaming ∨ ∃ m ∈ s.plan, m.node.op.Fails e := by
  unfold push at he
  split at he
  · rename_i hsource
    cases he
    exact .inl (source_fails hsource)
  · rename_i source _
    split at he
    · rename_i hsteps
      cases he
      exact .inr (stepNodes_fails h (congrArg Prod.fst hsteps))
    · split at he
      · cases he
      · cases he
        exact .inl ⟨_, rfl, rfl⟩

end Session

/-! ### Sides of edges -/

namespace Analysis

/-- Whether the inputs of the model that are streamed are streamed towards all planned
nodes that take them. -/
def StreamsToAll (a : Analysis) : Prop :=
  ∀ i ∈ a.plan, ∀ n, a.nodes[i]? = some n → n.op.isPlaceholder = true → a.isStreamed i = true →
    ∀ e ∈ a.edgesFrom i, ∀ j ∈ a.plan, e.target = some j → e.axis ≠ none

section

variable {a : Analysis} (hw : WellFormed a) {i : Nat} {n : Node} (hi : i ∈ a.plan) (hn : a.nodes[i]? = some n)
include hw hi hn

/-- What a node sees of its inputs, it sees on the edges from their producers. -/
theorem exists_edge_of_zip {x : Input × Option Nat} (hx : x ∈ n.inputs.zip ((a.edgesInto i).map Edge.axis)) :
    ∃ e ∈ a.edgesInto i, e.axis = x.2 ∧ e.source = some x.1.producer.toNat ∧ x.1.producer.toNat ∈ a.plan := by
  have hboth : List.Forall₂ (fun (y : Input) axis => ∃ e ∈ a.edgesInto i, e.axis = axis ∧
      e.source = some y.producer.toNat ∧ y.producer.toNat ∈ a.plan) n.inputs ((a.edgesInto i).map Edge.axis) := by
    rw [List.forall₂_map_right_iff]
    exact (hw.inputs_origin hn hi).flip.imp fun y e ⟨he, hs, hp⟩ => ⟨e, he, rfl, hs, hp⟩
  exact (List.forall₂_iff_zip.1 hboth).2 hx

theorem exists_zip_of_edge {e : Edge} (he : e ∈ a.edgesInto i) :
    ∃ x ∈ n.inputs.zip ((a.edgesInto i).map Edge.axis), x.2 = e.axis ∧ e.source = some x.1.producer.toNat := by
  have horigin := hw.inputs_origin hn hi
  obtain ⟨k, hk, rfl⟩ := List.mem_iff_getElem.1 he
  have hkn : k < n.inputs.length := horigin.length_eq ▸ hk
  have hzip : k < (n.inputs.zip ((a.edgesInto i).map Edge.axis)).length := by
    rw [List.length_zip, List.length_map]
    omega
  refine ⟨_, List.getElem_mem hzip, ?_, ?_⟩
  · rw [List.getElem_zip, List.getElem_map]
  · rw [List.getElem_zip]
    exact (horigin.get hk hkn).2.1

theorem exists_edge_of_producer {p : Nat} (hp : p ∈ Plan.producersAt a.nodes i) :
    ∃ e ∈ a.edgesInto i, e.source = some p ∧ p ∈ a.plan := by
  rw [Plan.producersAt_eq hn] at hp
  obtain ⟨x, hx, rfl⟩ := List.mem_map.1 hp
  obtain ⟨e, -, he, hs, hplan⟩ := exists_of_forall₂ (hw.inputs_origin hn hi) x hx
  exact ⟨e, he, hs, hplan⟩

end

section

variable {a : Analysis} (hw : WellFormed a) (hstable : a.Stable)
include hw hstable

/-- All edges out of a node are streamed as its output is, unless it is an input of the model. -/
theorem axis_eq_outputAxis (hlib : OfLibrary a) {i : Nat} {n : Node} (hi : i ∈ a.plan) (hn : a.nodes[i]? = some n)
    (hinput : n.op.isPlaceholder = false) : ∀ e ∈ a.edgesFrom i, e.axis = a.outputAxis i := by
  obtain ⟨m, hm, hcontent⟩ := (stableAt_iff hw.toLinked).1 (hstable i hi)
  cases hn.symm.trans hm
  obtain ⟨y, hy, hall⟩ := hcontent.agree (hlib n (List.mem_of_getElem? hn)) hinput
  intro e he
  have hshape : e.fact.shape = y.shape := (TensorFact.mk.inj (hall e he).1).2.1
  rw [outputAxis, outputFact_eq hw.toLinked (hw.lt i hi), hy, Edge.axis, hshape]

/-- What a planned node takes whole is whole, if streamed inputs are streamed towards all. -/
theorem outputAxis_of_edge (hlib : OfLibrary a) (hinputs : a.StreamsToAll) {i p : Nat} {e : Edge} (hi : i ∈ a.plan)
    (he : e ∈ a.edgesInto i) (hp : p ∈ a.plan) (hs : e.source = some p) (hnone : e.axis = none) :
    a.outputAxis p = none := by
  obtain ⟨hmem, ht⟩ := mem_edgesInto.1 he
  have hfrom : e ∈ a.edgesFrom p := mem_edgesFrom.2 ⟨hmem, hs⟩
  obtain ⟨n, hn⟩ := hw.exists_node hp
  cases hop : n.op.isPlaceholder with
  | false => rw [← axis_eq_outputAxis hw hstable hlib hp hn hop e hfrom, hnone]
  | true =>
    by_contra hne
    have hstreamed : a.isStreamed p = true := Option.isSome_iff_ne_none.2 hne
    exact hinputs p hp n hn hop hstreamed e hfrom i hi ht hnone

/-- An input of the model that declares its streamed axis is streamed towards all. -/
theorem streamsToAll_of_declared (h : ∀ i ∈ a.plan, ∀ n fact, a.nodes[i]? = some n → n.op = .placeholder fact →
    a.isStreamed i = true → fact.shape.streamedAxis? ≠ none) : a.StreamsToAll := by
  intro i hi n hn hop hs e he j _ _ hnone
  obtain ⟨fact, hfact⟩ := Operator.placeholder_of_isPlaceholder hop
  obtain ⟨m, ins, y, out, hm, -, href, hedges⟩ := (hstable i hi).inferred hw.toLinked
  cases hn.symm.trans hm
  rw [hfact] at href
  obtain ⟨-, rfl⟩ := Operator.refine_placeholder href
  exact h i hi n _ hn hfact hs ((hedges e he).1.streamedAxis?_eq_none hnone)

end

/-- A node of an analysis as a session takes it up. -/
def takenNode (a : Analysis) (i : Nat) (n : Node) : StreamNode where
  index := i
  node := n
  inputAxes := (a.edgesInto i).map Edge.axis
  outputAxis := a.outputAxis i

end Analysis

/-! ### Sessions of an analysis -/

/-- Whether a session has taken up some nodes of an analysis: it has states of those
that are streamed and values of the others. -/
structure Session.Follows (s : Session) (a : Analysis) (done : List Nat) : Prop where
  plan : List.Forall₂ (fun i m => ∃ n, a.nodes[i]? = some n ∧ m = a.takenNode i n) done s.plan
  values : s.values.map Prod.fst = done.filter fun i => !a.isStreamed i
  states : s.states.map Prod.fst = done.filter a.isStreamed

/-- Whether a session splits the planned nodes of an analysis into those that are
streamed and those that are not so that nothing is missing. -/
structure Session.Split (s : Session) (a : Analysis) : Prop where
  planned : s.plan.map StreamNode.index = a.plan
  /-- What is not streamed comes of nothing that is. -/
  whole : ∀ i ∈ a.plan, s.isStreamed i = false → ∀ p ∈ Plan.producersAt a.nodes i, s.isStreamed p = false
  /-- What a streamed node takes whole is there. -/
  stored : ∀ m ∈ s.plan, s.isStreamed m.index = true → s.Stored m

namespace Session

variable {a : Analysis} {s s' : Session} {done : List Nat}

theorem Follows.isStreamed (h : s.Follows a done) {i : Nat} (hi : i ∈ done) : s.isStreamed i = a.isStreamed i := by
  rw [Bool.eq_iff_iff, isStreamed_iff, h.states, List.mem_filter]
  exact and_iff_right hi

theorem Follows.exists_valueOf_iff (h : s.Follows a done) {i : Nat} (hi : i ∈ done) :
    (∃ t, s.valueOf i = .ok t) ↔ a.outputAxis i = none := by
  rw [Session.exists_valueOf_iff, h.values, List.mem_filter, ← Analysis.isStreamed_eq_false]
  simp [hi]

theorem Follows.index_eq (h : s.Follows a done) : s.plan.map StreamNode.index = done := by
  refine (List.forall₂_eq_eq_eq ▸ List.forall₂_map_right_iff.2 (h.plan.imp ?_)).symm
  rintro i m ⟨n, -, rfl⟩
  rfl

theorem Follows.exists_taken (h : s.Follows a done) {m : StreamNode} (hm : m ∈ s.plan) :
    ∃ i ∈ done, ∃ n, a.nodes[i]? = some n ∧ m = a.takenNode i n := exists_of_forall₂ h.plan m hm

theorem Follows.mem_plan (h : s.Follows a done) {i : Nat} (hi : i ∈ done) :
    ∃ n, a.nodes[i]? = some n ∧ a.takenNode i n ∈ s.plan := by
  obtain ⟨m, hm, n, hn, rfl⟩ := exists_of_forall₂ h.plan.flip i hi
  exact ⟨n, hn, hm⟩

theorem SameTables.follows (k : SameTables s s') (h : s.Follows a done) : s'.Follows a done where
  plan := k.plan ▸ h.plan
  values := k.values ▸ h.values
  states := k.states.trans h.states

/-- **Pushes keep what has been taken up**, also those that fail. -/
theorem push_follows (h : s.Follows a done) (name : String) (chunk : Tensor) :
    (s.push name chunk).2.Follows a done := (push_sameTables s name chunk).follows h

/-- The session after some pushes, whatever became of each. -/
def pushed (s : Session) (pushes : List (String × Tensor)) : Session :=
  pushes.foldl (fun s push => (s.push push.1 push.2).2) s

theorem pushed_follows (h : s.Follows a done) (pushes : List (String × Tensor)) :
    (s.pushed pushes).Follows a done := by
  induction pushes generalizing s with
  | nil => exact h
  | cons push pushes ih => exact ih (push_follows h push.1 push.2)

end Session

namespace Analysis

section

variable {a : Analysis} (hw : WellFormed a) (hlib : OfLibrary a) (hstable : a.Stable)

section

include hw hlib hstable

/-- A session of a plan splits it well if streamed inputs are streamed towards all. -/
theorem split_of_follows (hinputs : a.StreamsToAll) {s : Session} (h : s.Follows a a.plan)
    (hwhole : ∀ i ∈ a.plan, a.outputAxis i = none → ∀ e ∈ a.edgesInto i, e.axis = none) : s.Split a where
  planned := h.index_eq
  whole i hi hs p hp := by
    obtain ⟨n, hn⟩ := hw.exists_node hi
    obtain ⟨e, he, hsource, hplan⟩ := exists_edge_of_producer hw hi hn hp
    have hnone := hwhole i hi (isStreamed_eq_false.1 (h.isStreamed hi ▸ hs)) e he
    rw [h.isStreamed hplan, isStreamed_eq_false]
    exact outputAxis_of_edge hw hstable hlib hinputs hi he hplan hsource hnone
  stored m hm _ x hx hnone := by
    obtain ⟨i, hi, n, hn, rfl⟩ := h.exists_taken hm
    obtain ⟨e, he, haxis, hsource, hplan⟩ := exists_edge_of_zip hw hi hn hx
    have hvalue := (h.exists_valueOf_iff hplan).2
      (outputAxis_of_edge hw hstable hlib hinputs hi he hplan hsource (haxis.trans hnone))
    rwa [Int.toNat_of_nonneg (hw.resolved i n hn _ (List.of_mem_zip hx).1).1] at hvalue

end

include hw

/-- **A session splits the plan well only if** streamed inputs are streamed towards all. -/
theorem streamsToAll_of_split {s : Session} (h : s.Follows a a.plan) (hsplit : s.Split a) : a.StreamsToAll := by
  intro i hi _ _ _ hs e he j hj ht hnone
  obtain ⟨hmem, hsource⟩ := mem_edgesFrom.1 he
  have hstreamed : s.isStreamed i = true := (h.isStreamed hi).trans hs
  cases hjs : s.isStreamed j with
  | false =>
    have hproducer := hw.toLinked.source_mem_producersAt hmem ht hsource
    rw [hsplit.whole j hj hjs i hproducer] at hstreamed
    cases hstreamed
  | true =>
    obtain ⟨n, hn, htaken⟩ := h.mem_plan hj
    obtain ⟨x, hx, haxis, hxs⟩ := exists_zip_of_edge hw hj hn (mem_edgesInto.2 ⟨hmem, ht⟩)
    have hvalue := hsplit.stored _ htaken hjs x hx (haxis.trans hnone)
    obtain rfl : i = x.1.producer.toNat := Option.some.inj (hsource.symm.trans hxs)
    rw [← Int.toNat_of_nonneg (hw.resolved j n hn _ (List.of_mem_zip hx).1).1, h.exists_valueOf_iff hi] at hvalue
    rw [isStreamed, hvalue] at hs
    cases hs

theorem evaluate_fails {s : Session} {i : Nat} {n : Node} (hn : a.nodes[i]? = some n) {inputs : Table Tensor}
    (hvalues : ∀ p ∈ Plan.producersAt a.nodes i, ∃ t, s.valueOf p = .ok t) {e : Failure}
    (he : s.evaluate n inputs = .error e) :
    e.IsStreaming ∨ n.op.Fails e := by
  cases hop : n.op.isPlaceholder with
  | true =>
    obtain ⟨fact, hfact⟩ := Operator.placeholder_of_isPlaceholder hop
    simp only [Session.evaluate, hfact] at he
    cases hv : inputs.find? n.name with
    | none =>
      rw [hv] at he
      cases he
      exact .inl ⟨_, rfl, rfl⟩
    | some v =>
      rw [hv] at he
      cases he
  | false =>
    obtain ⟨ts, hts⟩ : ∃ ts, (n.inputs.mapM fun x => s.valueOf x.producer) = .ok ts := by
      refine exists_mapM_eq_ok fun x hx => ?_
      have hvalue := hvalues _ (Plan.mem_producersAt_of_node hn (List.mem_map_of_mem hx))
      rwa [Int.toNat_of_nonneg (hw.resolved i n hn x hx).1] at hvalue
    rw [Session.evaluate_eq hop, hts] at he
    exact .inr (.inl ⟨ts, he⟩)

end

section

variable {a : Analysis} (hw : WellFormed a) {inputs : Table Tensor}
include hw

theorem addNode_follows {s s' : Session} {done : List Nat} {i : Nat} (h : s.Follows a done) (hi : i ∈ a.plan)
    (hs : Session.addNode a inputs s i = .ok s') : s'.Follows a (done ++ [i]) := by
  obtain ⟨n, hn⟩ := hw.exists_node hi
  obtain ⟨f, hf⟩ := exists_outputFact_of_addNode hs
  have hplan : List.Forall₂ (fun j m => ∃ n, a.nodes[j]? = some n ∧ m = a.takenNode j n) (done ++ [i])
      (s.plan ++ [a.takenNode i n]) := List.rel_append h.plan (.cons ⟨n, hn, rfl⟩ .nil)
  rw [addNode_eq hw hn hf] at hs
  dsimp only at hs
  split at hs
  · rename_i hstreamed
    cases hs
    refine ⟨hplan, ?_, ?_⟩
    · simp [h.values, hstreamed]
    · simp [h.states, hstreamed]
  · rename_i hwhole
    split at hs
    · cases hs
    · obtain ⟨v, -, rfl⟩ := map_eq_ok_iff.1 hs
      refine ⟨hplan, ?_, ?_⟩
      · simp [h.values, hwhole]
      · simp [h.states, hwhole]

theorem foldlM_addNode_follows : ∀ {rest done : List Nat} {s s' : Session}, (∀ i ∈ rest, i ∈ a.plan) →
    s.Follows a done → rest.foldlM (Session.addNode a inputs) s = .ok s' → s'.Follows a (done ++ rest)
  | [], done, s, s', _, h, hs => by
    cases hs
    rwa [List.append_nil]
  | i :: rest, done, s, s', hsub, h, hs => by
    rw [List.foldlM_cons, bind_eq_ok_iff] at hs
    obtain ⟨s₁, hadd, hs⟩ := hs
    have hrest := foldlM_addNode_follows (fun j hj => hsub j (.tail _ hj))
      (addNode_follows hw h (hsub i (.head _)) hadd) hs
    rwa [List.append_assoc] at hrest

/-- **A session that starts has taken up the plan.** -/
theorem follows_of_start {s : Session} (hs : Session.start a inputs = .ok s) : s.Follows a a.plan := by
  have hnone : Session.Follows ⟨a.nodes, a.output, [], [], []⟩ a [] := ⟨.nil, rfl, rfl⟩
  exact foldlM_addNode_follows hw (fun _ hi => hi) hnone hs

end

section

variable {a : Analysis} (hw : WellFormed a) (hlib : OfLibrary a) (hstable : a.Stable) (hinputs : a.StreamsToAll)
  {inputs : Table Tensor}
include hw hlib hstable hinputs

/-- If streamed inputs are streamed towards all, taking up a node fails for reasons of
streaming or for its operator. -/
theorem addNode_fails {s : Session} {done : List Nat} {i : Nat} (h : s.Follows a done) (hi : i ∈ a.plan)
    (hdone : Plan.producersAt a.nodes i ⊆ done) {e : Failure} (he : Session.addNode a inputs s i = .error e) :
    e.OfSession a.nodes := by
  obtain ⟨n, hn⟩ := hw.exists_node hi
  obtain ⟨f, hf⟩ := exists_outputFact hw hstable i hi
  rw [addNode_eq hw hn hf] at he
  dsimp only at he
  split at he
  · cases he
  · split at he
    · cases he
      exact Failure.IsStreaming.ofSession ⟨_, rfl, rfl⟩ _
    · rename_i hnone
      have hvalues : ∀ p ∈ Plan.producersAt a.nodes i, ∃ t, s.valueOf p = .ok t := by
        intro p hp
        obtain ⟨d, hd, hsource, hplan⟩ := exists_edge_of_producer hw hi hn hp
        refine (h.exists_valueOf_iff (hdone hp)).2 (outputAxis_of_edge hw hstable hlib hinputs hi hd hplan hsource ?_)
        by_contra hne
        exact hnone (List.any_eq_true.2 ⟨_, List.mem_map_of_mem hd, Option.isSome_iff_ne_none.2 hne⟩)
      rcases evaluate_fails hw hn hvalues (map_eq_error_iff.1 he) with hstreaming | hfails
      · exact hstreaming.ofSession _
      · exact hfails.ofSession (List.mem_of_getElem? hn) (hlib n (List.mem_of_getElem? hn))

theorem foldlM_addNode_fails {e : Failure} : ∀ {rest done : List Nat} {s : Session},
    Plan.Ordered (Plan.producersAt a.nodes) done.reverse rest → (∀ i ∈ rest, i ∈ a.plan) → s.Follows a done →
    rest.foldlM (Session.addNode a inputs) s = .error e → e.OfSession a.nodes
  | [], _, _, _, _, _, he => nomatch he
  | i :: rest, done, s, ho, hsub, h, he => by
    have hi := hsub i (.head _)
    have hdone : Plan.producersAt a.nodes i ⊆ done := fun p hp => List.mem_reverse.1 (ho.2.1 hp)
    have hordered : Plan.Ordered (Plan.producersAt a.nodes) (done ++ [i]).reverse rest := by
      rw [List.reverse_append]
      exact ho.2.2
    rw [List.foldlM_cons] at he
    cases hadd : Session.addNode a inputs s i with
    | ok s₁ =>
      rw [hadd] at he
      exact foldlM_addNode_fails hordered (fun j hj => hsub j (.tail _ hj)) (addNode_follows hw h hi hadd) he
    | error e' =>
      rw [hadd] at he
      cases he
      exact addNode_fails hw hlib hstable hinputs h hi hdone hadd

end

/-- **A session that starts has taken up the plan**; one that does not fails for reasons of
streaming or for an operator, if streamed inputs are streamed towards all. -/
theorem start_cases {a : Analysis} (hw : WellFormed a) (hlib : OfLibrary a) (hstable : a.Stable)
    (inputs : Table Tensor) : (∀ s, Session.start a inputs = .ok s → s.Follows a a.plan) ∧
      (a.StreamsToAll → ∀ e, Session.start a inputs = .error e → e.OfSession a.nodes) := by
  have hordered : Plan.Ordered (Plan.producersAt a.nodes) ([] : List Nat).reverse a.plan := hw.ordered
  exact ⟨fun s hs => follows_of_start hw hs, fun hinputs e he =>
    foldlM_addNode_fails hw hlib hstable hinputs hordered (fun _ hi => hi) ⟨.nil, rfl, rfl⟩ he⟩

/-- **Sessions split what is streamed from what is whole.** Take an analysis of a model
of operators of the library after any actions, and a run that settles; let the streamed
inputs of the model be streamed towards all planned nodes that take them. A session
that does not start fails for reasons of streaming or for an operator. One that does
splits the plan, and goes on to do so whatever is pushed: what is not streamed comes of
nothing that is, and what streamed nodes take whole is there. So a push fails for
reasons of streaming or for an operator only, and nothing is looked up in vain. -/
theorem session_splits {model : Model} {output : Int} {limit : Option Nat} {start r : Analysis}
    (hlib : ∀ n ∈ model.nodes, n.op.IsLibrary) (hstart : Analysis.start model output limit = .ok start)
    (xs : List Action) (hr : (start.afterAll xs).run = (.ok (), r)) (hinputs : r.StreamsToAll)
    (inputs : Table Tensor) :
    (∀ e, Session.start r inputs = .error e → e.OfSession r.nodes) ∧
      ∀ s, Session.start r inputs = .ok s → ∀ pushes, (s.pushed pushes).Split r ∧
        ∀ name chunk e, ((s.pushed pushes).push name chunk).1 = .error e → e.OfSession r.nodes := by
  obtain ⟨hw, hlibr, hstable⟩ := settled_of_run hlib hstart hr
  obtain ⟨hfollows, hfails⟩ := start_cases hw hlibr hstable inputs
  refine ⟨hfails hinputs, fun s hs pushes => ?_⟩
  have hf : (s.pushed pushes).Follows r r.plan := Session.pushed_follows (hfollows s hs) pushes
  have hsplit : (s.pushed pushes).Split r := split_of_follows hw hlibr hstable hinputs hf fun i hi hnone =>
    whole_of_start hw hs (exists_outputFact hw hstable) hi hnone
  refine ⟨hsplit, fun name chunk e he => ?_⟩
  rcases Session.push_fails hsplit.stored he with hstreaming | ⟨m, hm, hop⟩
  · exact hstreaming.ofSession _
  · obtain ⟨i, -, n, hn, rfl⟩ := hf.exists_taken hm
    exact hop.ofSession (List.mem_of_getElem? hn) (hlibr n (List.mem_of_getElem? hn))

end Analysis

/-- An input added to its positive part. -/
def fork (declared : TensorFact) : Model := ⟨[
  ⟨0, "x", "Placeholder", .placeholder declared, []⟩,
  ⟨1, "y", "Relu", .relu, [⟨0, none⟩]⟩,
  ⟨2, "z", "Add", .add, [⟨0, none⟩, ⟨1, none⟩]⟩]⟩

/-- The fact of lists that are streamed. -/
def streamedList : TensorFact := .ofShape none (.closed [.streamed])

/-- A list of one number. -/
def singleton (k : Int) : Tensor := .ofFn (.int .w64) [1] fun _ => .int k

namespace Analysis

theorem fork_library {declared : TensorFact} (h : declared.value = none) :
    ∀ n ∈ (fork declared).nodes, n.op.IsLibrary := by
  intro n hn
  simp only [fork, List.mem_cons, List.not_mem_nil, or_false] at hn
  rcases hn with rfl | rfl | rfl
  · exact h
  · trivial
  · trivial

theorem fork_streamsToAll {a r : Analysis} (hstart : start (fork streamedList) 2 none = .ok a)
    (hrun : (a.afterAll []).run = (.ok (), r)) (hnodes : r.nodes = (fork streamedList).nodes) : r.StreamsToAll := by
  obtain ⟨hw, -, hstable⟩ := settled_of_run (fork_library rfl) hstart hrun
  refine streamsToAll_of_declared hw hstable fun i _ n fact hn hop _ => ?_
  have hmem := hnodes ▸ List.mem_of_getElem? hn
  simp only [fork, List.mem_cons, List.not_mem_nil, or_false] at hmem
  rcases hmem with rfl | rfl | rfl
  · cases hop
    decide
  · cases hop
  · cases hop

/-- If the input declares that it is streamed, a session splits the plan, also after a
push that fails for a reason of streaming and one that delivers. -/
theorem fork_splits : ∃ a r s, start (fork streamedList) 2 none = .ok a ∧
    (a.afterAll []).run = (.ok (), r) ∧ Session.start r [] = .ok s ∧
    (s.pushed [("y", singleton 1), ("x", singleton 1)]).Split r ∧
    (∃ e, (s.push "y" (singleton 1)).1 = .error e ∧ e.OfSession r.nodes) ∧
    ∃ t, (s.push "x" (singleton 1)).1 = .ok (some t) := by
  obtain ⟨a, r, s, e, t, hstart, hrun, hnodes, hs, he, ht⟩ : ∃ a r s e t,
      start (fork streamedList) 2 none = .ok a ∧ (a.afterAll []).run = (.ok (), r) ∧
      r.nodes = (fork streamedList).nodes ∧ Session.start r [] = .ok s ∧
      (s.push "y" (singleton 1)).1 = .error e ∧ (s.push "x" (singleton 1)).1 = .ok (some t) :=
    ⟨_, _, _, _, _, rfl, rfl, rfl, rfl, rfl, rfl⟩
  have hinputs := fork_streamsToAll hstart hrun hnodes
  obtain ⟨-, hsplits⟩ := session_splits (fork_library rfl) hstart [] hrun hinputs []
  exact ⟨a, r, s, hstart, hrun, hs, (hsplits s hs _).1, ⟨e, he, (hsplits s hs []).2 _ _ e he⟩, t, ht⟩

/-- If it does not, the session that starts looks for the input as a whole when a chunk
of it arrives. -/
theorem fork_fails : ∃ a r s, start (fork .unknown) 2 none = .ok a ∧
    (a.afterAll [.hint 1 streamedList, .hint 2 streamedList]).run = (.ok (), r) ∧
    Session.start r [] = .ok s ∧ (s.push "x" (singleton 1)).1 = .error (.primitive .noSuchKey) :=
  ⟨_, _, _, rfl, rfl, rfl, rfl⟩

end Analysis

end EdgeFacts
