/-
# Sessions follow the flow

A session of a streamable analysis holds what evaluation gives at the nodes that
are not streamed, and what the streamed ones keep (`Analysis.session`). It starts
where no chunk has arrived (`Analysis.start_session`), and a push takes it from
some number of chunks to the next: each streamed node takes its step in the flow
(`Analysis.Flow.push`), so a run delivers what has flowed out of the output
(`Analysis.Flow.run`).

Key definitions: `Analysis.session`, `Analysis.chunkAt`, `Analysis.sessionPast`.
Key theorems: `Analysis.start_session`, `Analysis.whole_of_start`, `Analysis.Flow.push`,
`Analysis.Flow.run`.
-/
import EdgeFacts.Streaming.Session
import EdgeFacts.Proofs.Flow

namespace EdgeFacts

namespace Session

/-! ### Values of nodes -/

theorem zip_map_self {β : Type} (f : α → β) : ∀ xs : List α, xs.zip (xs.map f) = xs.map fun y => (y, f y)
  | [] => rfl
  | y :: xs => by rw [List.map_cons, List.zip_cons_cons, zip_map_self f xs, List.map_cons]

/-- A node that is no input of the model is evaluated at the values of its producers. -/
theorem evaluate_eq {s : Session} {n : Node} {inputs : Table Tensor} (hop : n.op.isPlaceholder = false) :
    s.evaluate n inputs = (n.inputs.mapM fun i => s.valueOf i.producer) >>= n.op.eval := by
  unfold evaluate
  cases hcase : n.op with
  | placeholder fact =>
    rw [hcase] at hop
    cases hop
  | _ => rfl

/-! ### Steps of nodes -/

section

variable {s : Session} {d : Delivered} {x : Nat} {n : StreamNode} {rest : List StreamNode}

theorem stepNodes_skip (h : n.index = x ∨ s.isStreamed n.index = false) :
    stepNodes x (n :: rest) d s = stepNodes x rest d s :=
  if_pos (h.imp_right fun hs => by rw [hs]; rfl)

theorem stepNodes_step {inputs : List StepInput} {chunk : Option Tensor} {state : Option StreamBuffer}
    (hx : n.index ≠ x) (hs : s.isStreamed n.index = true) (hop : n.node.op.isPlaceholder = false)
    (hinputs : s.stepInputs d n = .ok inputs)
    (hstep : n.node.op.step inputs (lookup? s.states n.index).join = (.ok chunk, state)) :
    stepNodes x (n :: rest) d s =
      stepNodes x rest (d ++ [(n.index, chunk)]) { s with states := replace s.states n.index state } := by
  have hgo : ¬(n.index = x ∨ (!s.isStreamed n.index) = true) := by simp [hx, hs]
  rw [stepNodes, if_neg hgo, hop, if_neg Bool.false_ne_true, hinputs]
  simp only [hstep]

end

end Session

namespace Analysis

/-! ### The session of a plan -/

/-- A node of a plan with its streamed axes. -/
def streamNode (a : Analysis) (i : Nat) (n : Node) : StreamNode where
  index := i
  node := n
  inputAxes := n.producers.map a.outputAxis
  outputAxis := a.outputAxis i

/-- The nodes of a plan with their streamed axes. -/
def streamNodes (a : Analysis) (plan : List Nat) : List StreamNode :=
  plan.filterMap fun i => a.nodes[i]?.map (a.streamNode i)

/-- Whether the output of a node is streamed. -/
def isStreamed (a : Analysis) (i : Nat) : Bool := (a.outputAxis i).isSome

/-- A session that holds given values of the nodes of a plan that are not streamed, and
given states of the others. -/
def session (a : Analysis) (plan : List Nat) (value : Nat → Tensor) (state : Nat → Option StreamBuffer) :
    Session where
  nodes := a.nodes
  output := a.output
  plan := a.streamNodes plan
  values := (plan.filter fun i => !a.isStreamed i).map fun i => (i, value i)
  states := (plan.filter a.isStreamed).map fun i => (i, state i)

section

variable {a : Analysis} {plan : List Nat} {value : Nat → Tensor} {state : Nat → Option StreamBuffer} {i : Nat}

theorem isStreamed_eq_false : a.isStreamed i = false ↔ a.outputAxis i = none := by
  rw [isStreamed, Option.isSome_eq_false_iff, Option.isNone_iff_eq_none]

theorem streamNodes_cons {n : Node} (hn : a.nodes[i]? = some n) :
    a.streamNodes (i :: plan) = a.streamNode i n :: a.streamNodes plan := by
  rw [streamNodes, List.filterMap_cons, hn]
  rfl

theorem valueOf_session (hi : i ∈ plan) (hnone : a.outputAxis i = none) :
    (a.session plan value state).valueOf i = .ok (value i) := by
  have hmem : i ∈ plan.filter fun i => !a.isStreamed i :=
    List.mem_filter.2 ⟨hi, by rw [isStreamed_eq_false.2 hnone]; rfl⟩
  have hlookup := lookup?_map (f := value) hmem
  simp only [Session.valueOf, session]
  rw [if_neg (by omega), Int.toNat_natCast, hlookup]
  rfl

theorem isStreamed_session (hi : i ∈ plan) : (a.session plan value state).isStreamed i = a.isStreamed i := by
  rw [Session.isStreamed, session, List.any_map, Bool.eq_iff_iff, List.any_eq_true]
  constructor
  · rintro ⟨j, hj, hji⟩
    obtain rfl : j = i := by simpa using hji
    exact (List.mem_filter.1 hj).2
  · exact fun hs => ⟨i, List.mem_filter.2 ⟨hi, hs⟩, by simp⟩

theorem session_update (y : Option StreamBuffer) :
    { a.session plan value state with states := replace (a.session plan value state).states i y } =
      a.session plan value (Function.update state i y) := by
  simp only [session, replace_map]

/-- The states of the streamed nodes are all that is held of states. -/
theorem session_congr {state' : Nat → Option StreamBuffer}
    (h : ∀ j ∈ plan, a.isStreamed j = true → state j = state' j) :
    a.session plan value state = a.session plan value state' := by
  have hstates : ((plan.filter a.isStreamed).map fun j => (j, state j)) =
      (plan.filter a.isStreamed).map fun j => (j, state' j) := by
    refine List.map_congr_left fun j hj => ?_
    obtain ⟨hj, hs⟩ := List.mem_filter.1 hj
    rw [h j hj hs]
  simp only [session, hstates]

end

/-! ### The start -/

/-- What the nodes of a plan keep before the first chunk. -/
def newState (a : Analysis) (i : Nat) : Option StreamBuffer := a.nodes[i]?.bind fun n => n.op.newState

section

variable {a : Analysis} {inputs : Table Tensor}

theorem exists_addNode : ∀ {plan : List Nat} {s s' : Session},
    plan.foldlM (Session.addNode a inputs) s = .ok s' → ∀ i ∈ plan, ∃ s s', Session.addNode a inputs s i = .ok s'
  | [], _, _, _, _, hi => nomatch hi
  | j :: plan, s, s', h, i, hi => by
    rw [List.foldlM_cons, bind_eq_ok_iff] at h
    obtain ⟨s₁, h₁, h⟩ := h
    rcases List.mem_cons.1 hi with rfl | hi
    · exact ⟨s, s₁, h₁⟩
    · exact exists_addNode h i hi

theorem exists_outputFact_of_addNode {s s' : Session} {i : Nat} (h : Session.addNode a inputs s i = .ok s') :
    ∃ f, a.outputFact i = .ok f := by
  simp only [Session.addNode, bind_eq_ok_iff] at h
  obtain ⟨-, -, f, hf, -⟩ := h
  exact ⟨f, hf⟩

variable (hw : WellFormed a)
include hw

/-- What a session asks for about a node that it adds. -/
theorem addNode_eq {s : Session} {i : Nat} {n : Node} {f : TensorFact} (hn : a.nodes[i]? = some n)
    (hf : a.outputFact i = .ok f) : Session.addNode a inputs s i =
      let s' := { s with plan := s.plan ++ [StreamNode.mk i n ((a.edgesInto i).map Edge.axis) (a.outputAxis i)] }
      if a.isStreamed i then .ok { s' with states := s'.states ++ [(i, n.op.newState)] }
      else if ((a.edgesInto i).map Edge.axis).any Option.isSome then .error (.because (.wholeOutput n.name))
      else (s'.evaluate n inputs).map fun v => { s' with values := s'.values ++ [(i, v)] } := by
  have hlt := (List.getElem?_eq_some_iff.1 hn).1
  have haxis : f.shape.streamedAxis? = a.outputAxis i := by rw [outputAxis, hf]
  have hfacts := factsOf_edges hw.toLinked fun e (he : e ∈ a.edgesInto i) => (mem_edgesInto.1 he).1
  have hmap : (((a.edgesInto i).map Edge.fact).map fun f => f.shape.streamedAxis?) =
      (a.edgesInto i).map Edge.axis := List.map_map
  simp only [Session.addNode, itemAt_eq_ok_iff.2 hn, hf, itemAt_eq_ok_iff.2 (hw.toLinked.incoming_getElem? hlt),
    hfacts, bind, Except.bind, hmap, haxis, isStreamed]
  split
  · rfl
  · split
    · rfl
    · cases Session.evaluate _ n inputs <;> rfl

/-- **What is not streamed needs nothing that is** where a session can start. -/
theorem whole_of_start {s : Session} (hs : Session.start a inputs = .ok s)
    (hfact : ∀ i ∈ a.plan, ∃ f, a.outputFact i = .ok f) {i : Nat} (hi : i ∈ a.plan)
    (hnone : a.outputAxis i = none) : ∀ e ∈ a.edgesInto i, e.axis = none := by
  obtain ⟨s₁, s₂, hadd⟩ := exists_addNode hs i hi
  obtain ⟨n, hn⟩ := hw.exists_node hi
  obtain ⟨f, hf⟩ := hfact i hi
  rw [addNode_eq hw hn hf, isStreamed_eq_false.2 hnone] at hadd
  by_contra hne
  have hany : ((a.edgesInto i).map Edge.axis).any Option.isSome = true := by
    simp only [not_forall] at hne
    obtain ⟨e, he, hne⟩ := hne
    exact List.any_eq_true.2 ⟨_, List.mem_map_of_mem he, Option.isSome_iff_ne_none.2 hne⟩
  simp only [hany, Bool.false_eq_true, if_false, if_true] at hadd
  cases hadd

end

/-- What a session relies on: the axes of inputs are those of producers, what is not
streamed needs nothing that is, and its values are what evaluation gives. -/
structure Holds (a : Analysis) (inputs : Table Tensor) (value : Nat → Tensor) : Prop where
  facts : ∀ i ∈ a.plan, ∃ f, a.outputFact i = .ok f
  axes : ∀ i ∈ a.plan, ∀ n, a.nodes[i]? = some n → n.producers.map a.outputAxis = (a.edgesInto i).map Edge.axis
  whole : ∀ i ∈ a.plan, a.outputAxis i = none → ∀ p ∈ Plan.producersAt a.nodes i, a.outputAxis p = none
  values : ∀ i ∈ a.plan, a.outputAxis i = none → ∀ n, a.nodes[i]? = some n →
    if n.op.isPlaceholder then inputs.find? n.name = some (value i)
    else n.op.eval (n.producers.map value) = .ok (value i)

section

variable {a : Analysis} {inputs : Table Tensor} {value : Nat → Tensor} (hw : WellFormed a)
include hw

/-- What the inputs of a node are is found by the numbers of its producers. -/
theorem mapM_inputs_eq {β : Type} {i : Nat} {n : Node} (hn : a.nodes[i]? = some n)
    {f : Int → Except Failure β} {g : Nat → β} (h : ∀ p ∈ n.producers, f p = .ok (g p)) :
    (n.inputs.mapM fun x => f x.producer) = .ok (n.producers.map g) := by
  rw [mapM_eq_ok_iff, Node.producers, List.map_map, List.forall₂_map_right_iff, List.forall₂_same]
  intro y hy
  have hp := h _ (List.mem_map_of_mem hy)
  rwa [Int.toNat_of_nonneg (hw.resolved i n hn y hy).1] at hp

variable (h : a.Holds inputs value)
include h

/-- At a node that is not streamed a session holds what evaluation gives there. -/
theorem evaluate_session {done : List Nat} {i : Nat} {n : Node} (hi : i ∈ a.plan) (hn : a.nodes[i]? = some n)
    (hnone : a.outputAxis i = none) (hdone : Plan.producersAt a.nodes i ⊆ done) (plan : List StreamNode) :
    Session.evaluate { a.session done value a.newState with plan } n inputs = .ok (value i) := by
  have hvalue := h.values i hi hnone n hn
  split at hvalue
  · rename_i hop
    obtain ⟨fact, hfact⟩ := Operator.placeholder_of_isPlaceholder hop
    simp only [Session.evaluate, hfact, hvalue, orFail]
  · rename_i hop
    have hmap : (n.inputs.mapM fun y => (a.session done value a.newState).valueOf y.producer) =
        .ok (n.producers.map value) := by
      refine mapM_inputs_eq hw hn fun p hp => ?_
      have hmem := Plan.mem_producersAt_of_node hn hp
      exact valueOf_session (hdone hmem) (h.whole i hi hnone p hmem)
    rw [Session.evaluate_eq (by simpa using hop)]
    exact (congrArg (· >>= n.op.eval) hmap).trans hvalue

theorem addNode_session {done : List Nat} {i : Nat} (hi : i ∈ a.plan)
    (hdone : Plan.producersAt a.nodes i ⊆ done) :
    Session.addNode a inputs (a.session done value a.newState) i =
      .ok (a.session (done ++ [i]) value a.newState) := by
  obtain ⟨n, hn⟩ := hw.exists_node hi
  obtain ⟨f, hf⟩ := h.facts i hi
  have hstate : a.newState i = n.op.newState := by rw [newState, hn]; rfl
  rw [addNode_eq hw hn hf, ← h.axes i hi n hn]
  cases hs : a.isStreamed i with
  | true =>
    simp [session, streamNodes, hn, hs, hstate, streamNode]
  | false =>
    have hnone := isStreamed_eq_false.1 hs
    have hwhole : (n.producers.map a.outputAxis).any Option.isSome = false := by
      rw [List.any_map, List.any_eq_false]
      intro p hp
      simp [h.whole i hi hnone p (Plan.mem_producersAt_of_node hn hp)]
    simp only [Bool.false_eq_true, if_false, hwhole, evaluate_session hw h hi hn hnone hdone, Except.map]
    simp [session, streamNodes, hn, hs, streamNode]

/-- **A session starts** where no chunk has arrived. -/
theorem start_session : Session.start a inputs = .ok (a.session a.plan value a.newState) := by
  have hall : ∀ {rest done : List Nat}, Plan.Ordered (Plan.producersAt a.nodes) done.reverse rest →
      (∀ i ∈ rest, i ∈ a.plan) →
      rest.foldlM (Session.addNode a inputs) (a.session done value a.newState) =
        .ok (a.session (done ++ rest) value a.newState) := by
    intro rest
    induction rest with
    | nil =>
      intro done _ _
      rw [List.append_nil]
      rfl
    | cons i rest ih =>
      intro done ho hsub
      have hdone : Plan.producersAt a.nodes i ⊆ done := fun p hp => List.mem_reverse.1 (ho.2.1 hp)
      rw [List.foldlM_cons, addNode_session hw h (hsub i (.head _)) hdone]
      have ho' : Plan.Ordered (Plan.producersAt a.nodes) (done ++ [i]).reverse rest := by
        rw [List.reverse_append]
        exact ho.2.2
      have hrest := ih ho' fun j hj => hsub j (.tail _ hj)
      rw [List.append_assoc] at hrest
      exact hrest
  have ho : Plan.Ordered (Plan.producersAt a.nodes) ([] : List Nat).reverse a.plan := hw.ordered
  exact hall ho fun _ hi => hi

end

/-! ### Pushes -/

/-- The chunk that a node delivers when a chunk of the input arrives after `m` others. -/
def chunkAt (a : Analysis) (value : Nat → Tensor) (count : Nat → Nat → Nat) (i m : Nat) : Option Tensor :=
  (a.outputAxis i).bind fun k => (value i).chunk? k (count i m) (count i (m + 1))

/-- What an input of the model and the streamed ones among some nodes deliver then. -/
def deliveredAt (a : Analysis) (x : Nat) (value : Nat → Tensor) (count : Nat → Nat → Nat) (done : List Nat)
    (m : Nat) : Session.Delivered :=
  (x :: done.filter fun i => decide (i ≠ x) && a.isStreamed i).map fun i => (i, a.chunkAt value count i m)

/-- The session once a chunk of the input that arrives after `m` others has passed some nodes. -/
def sessionPast (a : Analysis) (value : Nat → Tensor) (state : Nat → Nat → Option StreamBuffer) (done : List Nat)
    (m : Nat) : Session :=
  a.session a.plan value fun i => state i (if i ∈ done then m + 1 else m)

namespace Flow

variable {a : Analysis} {x : Nat} {value : Nat → Tensor} {axis : Nat} {count : Nat → Nat → Nat}
  {state : Nat → Nat → Option StreamBuffer} {m : Nat}

theorem delivered_eq {done : List Nat} {p : Nat} (hp : p ∈ done) (hs : a.isStreamed p = true) :
    Session.delivered (a.deliveredAt x value count done m) p = a.chunkAt value count p m := by
  have hmem : p ∈ x :: done.filter fun i => decide (i ≠ x) && a.isStreamed i := by
    by_cases hpx : p = x
    · exact hpx ▸ .head _
    · exact .tail _ (List.mem_filter.2 ⟨hp, by simp [hpx, hs]⟩)
  rw [Session.delivered, if_neg (by omega), Int.toNat_natCast, deliveredAt, lookup?_map hmem]
  rfl

theorem deliveredAt_skip {done : List Nat} {i : Nat} (h : i = x ∨ a.isStreamed i = false) :
    a.deliveredAt x value count (done ++ [i]) m = a.deliveredAt x value count done m := by
  rcases h with hix | hs
  · simp [deliveredAt, hix]
  · simp [deliveredAt, hs]

theorem deliveredAt_step {done : List Nat} {i : Nat} (hix : i ≠ x) (hs : a.isStreamed i = true) :
    a.deliveredAt x value count (done ++ [i]) m =
      a.deliveredAt x value count done m ++ [(i, a.chunkAt value count i m)] := by
  simp [deliveredAt, hix, hs]

theorem source_session (h : a.Flow x value axis count state) {name : String} {nx : Node}
    (hname : a.nodes.find? (·.name = name) = some nx) (hid : nx.id = x) (st : Nat → Option StreamBuffer) :
    (a.session a.plan value st).source name = .ok x := by
  obtain ⟨n, hn, hop⟩ := h.source_op
  have hs : a.isStreamed x = true := by rw [isStreamed, h.source_axis]; rfl
  have hgo : ¬(nx.id < 0 ∨ (!(a.session a.plan value st).isStreamed nx.id.toNat) = true) := by
    rw [hid, Int.toNat_natCast, isStreamed_session h.source_mem, hs]
    simp
  have hnodes : (a.session a.plan value st).nodes = a.nodes := rfl
  rw [Session.source, hnodes, hname]
  refine (if_neg hgo).trans ?_
  rw [hid, Int.toNat_natCast, hn, Option.map_some, hop]

variable (h : a.Flow x value axis count state) (hw : WellFormed a)
include hw

theorem stepInputs_session {done : List Nat} {i : Nat} {n : Node} (hi : i ∈ a.plan) (hn : a.nodes[i]? = some n)
    (hdone : Plan.producersAt a.nodes i ⊆ done) (st : Nat → Option StreamBuffer) :
    (a.session a.plan value st).stepInputs (a.deliveredAt x value count done m) (a.streamNode i n) =
      .ok (n.producers.map fun p => (a.port value p).seen (count p m) (count p (m + 1))) := by
  have hzip : n.inputs.zip (n.producers.map a.outputAxis) =
      n.inputs.map fun y => (y, a.outputAxis y.producer.toNat) := by
    rw [Node.producers, List.map_map, Session.zip_map_self]
    rfl
  rw [Session.stepInputs, streamNode, hzip, List.mapM_map, mapM_eq_ok_iff, Node.producers, List.map_map,
    List.forall₂_map_right_iff, List.forall₂_same]
  intro y hy
  have hproducer : y.producer.toNat ∈ Plan.producersAt a.nodes i :=
    Plan.mem_producersAt_of_node hn (List.mem_map_of_mem hy)
  have hcast := Int.toNat_of_nonneg (hw.resolved i n hn y hy).1
  generalize y.producer.toNat = p at hproducer hcast
  simp only [Function.comp_apply, Port.seen, port, ← hcast, Int.toNat_natCast]
  cases hk : a.outputAxis p with
  | none => simp only [valueOf_session (hw.ordered.idxOf_lt hi hproducer).1 hk, Except.map]
  | some k =>
    have hs : a.isStreamed p = true := by rw [isStreamed, hk]; rfl
    simp only [delivered_eq (hdone hproducer) hs, chunkAt, hk, Option.bind_some]

include h

theorem stepNode_skip {rest done : List Nat} {i : Nat} (hi : i ∈ a.plan) (hskip : i = x ∨ a.isStreamed i = false) :
    Session.stepNodes x (a.streamNodes (i :: rest)) (a.deliveredAt x value count done m)
        (a.sessionPast value state done m) =
      Session.stepNodes x (a.streamNodes rest) (a.deliveredAt x value count (done ++ [i]) m)
        (a.sessionPast value state (done ++ [i]) m) := by
  obtain ⟨n, hn⟩ := hw.exists_node hi
  have hsession : a.sessionPast value state (done ++ [i]) m = a.sessionPast value state done m := by
    refine session_congr fun j _ hs => ?_
    by_cases hji : j = i
    · subst hji
      have hjx : j = x := hskip.resolve_right (by simp [hs])
      rw [hjx, h.source_state, h.source_state]
    · simp [hji]
  rw [streamNodes_cons hn, deliveredAt_skip hskip, hsession]
  exact Session.stepNodes_skip (hskip.imp_right (isStreamed_session hi).trans)

/-- A streamed node takes the step in its flow. -/
theorem stepNode_streamed {rest done : List Nat} {i : Nat} (hm : m < (value x).extent axis) (hi : i ∈ a.plan)
    (hix : i ≠ x) (hs : a.isStreamed i = true) (hnew : i ∉ done) (hdone : Plan.producersAt a.nodes i ⊆ done) :
    Session.stepNodes x (a.streamNodes (i :: rest)) (a.deliveredAt x value count done m)
        (a.sessionPast value state done m) =
      Session.stepNodes x (a.streamNodes rest) (a.deliveredAt x value count (done ++ [i]) m)
        (a.sessionPast value state (done ++ [i]) m) := by
  obtain ⟨n, hn⟩ := hw.exists_node hi
  obtain ⟨k, hk⟩ := Option.isSome_iff_exists.1 hs
  obtain ⟨hop, -⟩ := h.paced i hi hix n k hn hk
  have hlookup : (lookup? (a.sessionPast value state done m).states i).join = state i m := by
    simp only [sessionPast, session, lookup?_map (List.mem_filter.2 ⟨hi, hs⟩), if_neg hnew]
    rfl
  have hchunk : (value i).chunk? k (count i m) (count i (m + 1)) = a.chunkAt value count i m := by
    rw [chunkAt, hk]
    rfl
  have hstep := h.step hw hi hix hn hk hm
  rw [hchunk, ← hlookup] at hstep
  have hsession : a.session a.plan value (Function.update
      (fun j => state j (if j ∈ done then m + 1 else m)) i (state i (m + 1))) =
        a.sessionPast value state (done ++ [i]) m := by
    refine session_congr fun j _ _ => ?_
    by_cases hji : j = i
    · subst hji
      simp
    · simp [hji]
  rw [streamNodes_cons hn, deliveredAt_step hix hs, ← hsession, ← session_update]
  exact Session.stepNodes_step hix ((isStreamed_session hi).trans hs) hop (stepInputs_session hw hi hn hdone _) hstep

/-- **The streamed nodes take their steps**, one after the other. -/
theorem stepNodes_session (hm : m < (value x).extent axis) : ∀ {rest done : List Nat},
    Plan.Ordered (Plan.producersAt a.nodes) done.reverse rest → (∀ i ∈ rest, i ∈ a.plan) →
    Session.stepNodes x (a.streamNodes rest) (a.deliveredAt x value count done m)
        (a.sessionPast value state done m) =
      (.ok (a.deliveredAt x value count (done ++ rest) m), a.sessionPast value state (done ++ rest) m)
  | [], done, _, _ => by
    rw [List.append_nil]
    rfl
  | i :: rest, done, ho, hsub => by
    have hi := hsub i (.head _)
    have ho' : Plan.Ordered (Plan.producersAt a.nodes) (done ++ [i]).reverse rest := by
      rw [List.reverse_append]
      exact ho.2.2
    have hrest := stepNodes_session hm ho' fun j hj => hsub j (.tail _ hj)
    rw [List.append_assoc, List.singleton_append] at hrest
    rw [← hrest]
    by_cases hskip : i = x ∨ a.isStreamed i = false
    · exact h.stepNode_skip hw hi hskip
    · obtain ⟨hix, hs⟩ := not_or.1 hskip
      have hnew : i ∉ done := fun hid => ho.1 (List.mem_reverse.2 hid)
      have hdone : Plan.producersAt a.nodes i ⊆ done := fun p hp => List.mem_reverse.1 (ho.2.1 hp)
      exact h.stepNode_streamed hw hm hi hix (Bool.not_eq_false _ ▸ hs) hnew hdone

theorem session_zero : a.session a.plan value (fun i => state i 0) = a.session a.plan value a.newState := by
  refine session_congr fun i hi hs => ?_
  obtain ⟨k, hk⟩ := Option.isSome_iff_exists.1 hs
  by_cases hix : i = x
  · obtain ⟨n, hn, hop⟩ := h.source_op
    obtain ⟨fact, hfact⟩ := Operator.placeholder_of_isPlaceholder hop
    rw [hix, h.source_state, newState, hn, Option.bind_some, hfact]
    rfl
  · obtain ⟨n, hn⟩ := hw.exists_node hi
    obtain ⟨-, p, hp, l, rate, st, hl, -, hpace, -, hstate⟩ := h.paced i hi hix n k hn hk
    have hplan := (hw.ordered.idxOf_lt hi (p := p) (Plan.mem_producersAt_of_node hn hp)).1
    rw [hstate, Function.comp_apply, (h.advances hw p hplan l hl).1.zero, hpace.state_zero, newState, hn]
    rfl

section

variable {name : String} {nx : Node} (hname : a.nodes.find? (·.name = name) = some nx) (hid : nx.id = x)
  (hout : a.isStreamed a.output.toNat = true)
include hname hid hout

/-- **A push** takes a session from some number of chunks to the next. -/
theorem push (hm : m < (value x).extent axis) :
    (a.session a.plan value fun i => state i m).push name ((value x).slice axis m (m + 1)) =
      (.ok (a.chunkAt value count a.output.toNat m), a.session a.plan value fun i => state i (m + 1)) := by
  have hdelivered : [(x, some ((value x).slice axis m (m + 1)))] = a.deliveredAt x value count [] m := by
    simp [deliveredAt, chunkAt, h.source_axis, h.source_count, Tensor.chunk?]
  have hstart : (a.session a.plan value fun i => state i m) = a.sessionPast value state [] m :=
    session_congr fun i _ _ => by rw [if_neg List.not_mem_nil]
  have hstop : a.sessionPast value state a.plan m = a.session a.plan value fun i => state i (m + 1) :=
    session_congr fun i hi _ => by rw [if_pos hi]
  have ho : Plan.Ordered (Plan.producersAt a.nodes) ([] : List Nat).reverse a.plan := hw.ordered
  have hsteps := h.stepNodes_session hw hm ho fun i hi => hi
  rw [List.nil_append, hstop, ← hstart, ← hdelivered] at hsteps
  have hlast : Session.delivered (a.deliveredAt x value count a.plan m) (a.output.toNat : Nat) =
      a.chunkAt value count a.output.toNat m := delivered_eq hw.output_mem hout
  rw [Int.toNat_of_nonneg hw.output_lt.1] at hlast
  rw [Session.push, h.source_session hname hid]
  have hplan : (a.session a.plan value fun i => state i m).plan = a.streamNodes a.plan := rfl
  simp only [hplan, hsteps]
  refine (if_pos ⟨hw.output_lt.1, ?_⟩).trans (Prod.ext (congrArg Except.ok hlast) rfl)
  exact (isStreamed_session hw.output_mem).trans hout

/-- **A run** delivers what flows out of the output. -/
theorem run : ∀ {r m : Nat}, m + r ≤ (value x).extent axis →
    (a.session a.plan value fun i => state i m).run name
        ((List.range' m r).map fun k => (value x).slice axis k (k + 1)) =
      (.ok ((List.range' m r).filterMap (a.chunkAt value count a.output.toNat)),
        a.session a.plan value fun i => state i (m + r))
  | 0, _, _ => rfl
  | r + 1, m, hmr => by
    have ih := run (r := r) (m := m + 1) (by omega)
    rw [List.range'_succ, List.map_cons, Session.run, h.push hw hname hid hout (by omega)]
    simp only [ih]
    have hcount : m + 1 + r = m + (r + 1) := by omega
    rw [hcount, List.filterMap_cons]
    cases a.chunkAt value count a.output.toNat m <;> rfl

end

end Flow

end Analysis

end EdgeFacts
