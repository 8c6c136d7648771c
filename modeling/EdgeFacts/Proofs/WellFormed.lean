/-
# Well-formed analyses

The parts of an analysis agree with each other: nodes and edges are numbered by
their positions, each node has one edge per input, in order, the lists of edges
into and out of nodes say what the edges say, and the plan lists the output and
all that it needs, in order (`Analysis.WellFormed`). A new analysis is well
formed, and so is one of the same graph with other facts (`SameGraph`).

Key definitions: `Analysis.Linked`, `Analysis.Planned`, `Analysis.WellFormed`,
`Analysis.SameGraph`.
Key theorems: `Analysis.start_spec`, `Analysis.SameGraph.wellFormed`.
-/
import EdgeFacts.Proofs.Plan

namespace EdgeFacts

/-- All of an edge but its fact. -/
def Edge.ends (e : Edge) : Nat × Option Nat × Int × Option Nat := (e.id, e.source, e.port, e.target)

/-- Where the tensors on an edge come from: a node and one of its ports. -/
def Edge.origin (e : Edge) : Option Nat × Int := (e.source, e.port)

/-- Where the tensors of an input come from: a node and one of its ports. -/
def Input.origin (i : Input) : Option Nat × Int := (some i.producer.toNat, i.slot.getD 0)

theorem Edge.ends_eq_iff {e d : Edge} : e.ends = d.ends ↔
    e.id = d.id ∧ e.source = d.source ∧ e.port = d.port ∧ e.target = d.target := by
  simp [Edge.ends]

theorem Edge.origin_of_ends {e d : Edge} (h : e.ends = d.ends) : e.origin = d.origin := by
  obtain ⟨-, hs, hp, -⟩ := Edge.ends_eq_iff.1 h
  rw [Edge.origin, Edge.origin, hs, hp]

namespace Analysis

/-- Whether nodes, edges and the lists of edges into and out of nodes agree. -/
structure Linked (a : Analysis) : Prop where
  ids : ∀ (i : Nat) (n : Node), a.nodes[i]? = some n → n.id = i
  resolved : ∀ i, Plan.Resolved a.nodes i
  edgeIds : ∀ (j : Nat) (e : Edge), a.edges[j]? = some e → e.id = j
  incoming : a.incoming = incomingOf a.nodes.length a.edges
  outgoing : a.outgoing = outgoingOf a.nodes.length a.edges
  /-- Each node has one edge per input, in order. -/
  inputs : ∀ (i : Nat) (n : Node), a.nodes[i]? = some n →
    (a.edges.filter fun e => e.target = some i).map Edge.origin = n.inputs.map Input.origin
  source_lt : ∀ e ∈ a.edges, ∀ i, e.source = some i → i < a.nodes.length
  target_lt : ∀ e ∈ a.edges, ∀ i, e.target = some i → i < a.nodes.length
  /-- One edge leaves the graph from its output. -/
  terminal : ∃ e ∈ a.edges, e.origin = (some a.output.toNat, 0) ∧ e.target = none
  output_lt : 0 ≤ a.output ∧ a.output < a.nodes.length

/-- Whether the plan lists the output and what it needs, each once and in order. -/
structure Planned (a : Analysis) : Prop where
  ordered : Plan.Ordered (Plan.producersAt a.nodes) [] a.plan
  lt : ∀ i ∈ a.plan, i < a.nodes.length
  output_mem : a.output.toNat ∈ a.plan

/-- Whether all parts of an analysis agree, and it stands at a node of its plan. -/
structure WellFormed (a : Analysis) : Prop extends Linked a, Planned a where
  stepIndex_lt : a.stepIndex < a.plan.length

/-- Whether two analyses are of one graph, with facts and place of their own. -/
structure SameGraph (a b : Analysis) : Prop where
  nodes : a.nodes = b.nodes
  ends : a.edges.map Edge.ends = b.edges.map Edge.ends
  incoming : a.incoming = b.incoming
  outgoing : a.outgoing = b.outgoing
  output : a.output = b.output
  plan : a.plan = b.plan
  roundLimit : a.roundLimit = b.roundLimit

/-! ### Analyses of one graph -/

theorem SameGraph.refl (a : Analysis) : SameGraph a a := ⟨rfl, rfl, rfl, rfl, rfl, rfl, rfl⟩

theorem SameGraph.symm {a b : Analysis} (h : SameGraph a b) : SameGraph b a :=
  ⟨h.nodes.symm, h.ends.symm, h.incoming.symm, h.outgoing.symm, h.output.symm, h.plan.symm,
    h.roundLimit.symm⟩

theorem SameGraph.trans {a b c : Analysis} (h : SameGraph a b) (k : SameGraph b c) : SameGraph a c :=
  ⟨h.nodes.trans k.nodes, h.ends.trans k.ends, h.incoming.trans k.incoming,
    h.outgoing.trans k.outgoing, h.output.trans k.output, h.plan.trans k.plan,
    h.roundLimit.trans k.roundLimit⟩

theorem SameGraph.length_edges {a b : Analysis} (h : SameGraph a b) :
    a.edges.length = b.edges.length := by
  simpa using congrArg List.length h.ends

theorem SameGraph.ends_of_getElem? {a b : Analysis} (h : SameGraph a b) {j : Nat} {e d : Edge}
    (he : a.edges[j]? = some e) (hd : b.edges[j]? = some d) : e.ends = d.ends := by
  have := congrArg (fun l => l[j]?) h.ends
  simpa [he, hd] using this

theorem SameGraph.exists_edge {a b : Analysis} (h : SameGraph a b) {j : Nat} {e : Edge}
    (he : a.edges[j]? = some e) : ∃ d, b.edges[j]? = some d ∧ e.ends = d.ends := by
  have hj : j < b.edges.length := h.length_edges ▸ (List.getElem?_eq_some_iff.1 he).1
  have hd := List.getElem?_eq_getElem hj
  exact ⟨_, hd, h.ends_of_getElem? he hd⟩

/-- What is asked of the ends of edges has one answer for equal ends. -/
theorem filter_map_of_ends {α : Type} {p : Edge → Bool} {f : Edge → α}
    (hp : ∀ e d : Edge, e.ends = d.ends → p e = p d) (hf : ∀ e d : Edge, e.ends = d.ends → f e = f d) :
    ∀ {es ds : List Edge}, es.map Edge.ends = ds.map Edge.ends →
      (es.filter p).map f = (ds.filter p).map f
  | [], [], _ => rfl
  | [], _ :: _, h => by simp at h
  | _ :: _, [], h => by simp at h
  | e :: es, d :: ds, h => by
    simp only [List.map_cons, List.cons.injEq] at h
    have tail := filter_map_of_ends hp hf h.2
    simp only [List.filter_cons, hp e d h.1]
    split
    · simp only [List.map_cons, hf e d h.1, tail]
    · exact tail

theorem incomingOf_of_ends {count : Nat} {es ds : List Edge} (h : es.map Edge.ends = ds.map Edge.ends) :
    incomingOf count es = incomingOf count ds := by
  refine List.map_congr_left fun i _ => filter_map_of_ends (fun e d h => ?_) (fun e d h => ?_) h
  · rw [(Edge.ends_eq_iff.1 h).2.2.2]
  · exact (Edge.ends_eq_iff.1 h).1

theorem outgoingOf_of_ends {count : Nat} {es ds : List Edge} (h : es.map Edge.ends = ds.map Edge.ends) :
    outgoingOf count es = outgoingOf count ds := by
  refine List.map_congr_left fun i _ => filter_map_of_ends (fun e d h => ?_) (fun e d h => ?_) h
  · rw [(Edge.ends_eq_iff.1 h).2.1]
  · exact (Edge.ends_eq_iff.1 h).1

theorem SameGraph.linked {a b : Analysis} (h : SameGraph a b) (hb : Linked b) : Linked a where
  ids := h.nodes ▸ hb.ids
  resolved := h.nodes ▸ hb.resolved
  edgeIds j e he := by
    obtain ⟨d, hd, hed⟩ := h.exists_edge he
    rw [(Edge.ends_eq_iff.1 hed).1]
    exact hb.edgeIds j d hd
  incoming := by rw [h.incoming, hb.incoming, h.nodes, incomingOf_of_ends h.ends]
  outgoing := by rw [h.outgoing, hb.outgoing, h.nodes, outgoingOf_of_ends h.ends]
  inputs i n hn := by
    rw [← hb.inputs i n (h.nodes ▸ hn)]
    refine filter_map_of_ends (fun e d hed => ?_) (fun e d hed => Edge.origin_of_ends hed) h.ends
    rw [(Edge.ends_eq_iff.1 hed).2.2.2]
  source_lt e he i hi := by
    obtain ⟨j, hj⟩ := List.mem_iff_getElem?.1 he
    obtain ⟨d, hd, hed⟩ := h.exists_edge hj
    rw [h.nodes]
    exact hb.source_lt d (List.mem_of_getElem? hd) i ((Edge.ends_eq_iff.1 hed).2.1 ▸ hi)
  target_lt e he i hi := by
    obtain ⟨j, hj⟩ := List.mem_iff_getElem?.1 he
    obtain ⟨d, hd, hed⟩ := h.exists_edge hj
    rw [h.nodes]
    exact hb.target_lt d (List.mem_of_getElem? hd) i ((Edge.ends_eq_iff.1 hed).2.2.2 ▸ hi)
  terminal := by
    obtain ⟨d, hd, ho, ht⟩ := hb.terminal
    obtain ⟨j, hj⟩ := List.mem_iff_getElem?.1 hd
    obtain ⟨e, he, hde⟩ := h.symm.exists_edge hj
    refine ⟨e, List.mem_of_getElem? he, ?_, ?_⟩
    · rw [← Edge.origin_of_ends hde, ho, h.output]
    · rw [← (Edge.ends_eq_iff.1 hde).2.2.2, ht]
  output_lt := by rw [h.output, h.nodes]; exact hb.output_lt

theorem SameGraph.planned {a b : Analysis} (h : SameGraph a b) (hb : Planned b) : Planned a where
  ordered := by rw [h.nodes, h.plan]; exact hb.ordered
  lt := by rw [h.nodes, h.plan]; exact hb.lt
  output_mem := by rw [h.output, h.plan]; exact hb.output_mem

theorem SameGraph.wellFormed {a b : Analysis} (h : SameGraph a b) (hb : WellFormed b)
    (hi : a.stepIndex < a.plan.length) : WellFormed a :=
  { h.linked hb.toLinked, h.planned hb.toPlanned with stepIndex_lt := hi }

theorem Planned.of_valid {a : Analysis} (h : Plan.Valid a.nodes a.output a.plan) : Planned a :=
  ⟨h.ordered, h.lt, (h.mem_iff _).2 .output⟩

theorem Planned.exists_node {a : Analysis} (h : Planned a) {i : Nat} (hi : i ∈ a.plan) :
    ∃ n, a.nodes[i]? = some n := ⟨_, List.getElem?_eq_getElem (h.lt i hi)⟩

/-! ### The edges around a node -/

/-- The edges into a node. -/
def edgesInto (a : Analysis) (i : Nat) : List Edge := a.edges.filter fun e => e.target = some i

/-- The edges out of a node. -/
def edgesFrom (a : Analysis) (i : Nat) : List Edge := a.edges.filter fun e => e.source = some i

theorem mem_edgesInto {a : Analysis} {i : Nat} {e : Edge} :
    e ∈ a.edgesInto i ↔ e ∈ a.edges ∧ e.target = some i := by simp [edgesInto]

theorem mem_edgesFrom {a : Analysis} {i : Nat} {e : Edge} :
    e ∈ a.edgesFrom i ↔ e ∈ a.edges ∧ e.source = some i := by simp [edgesFrom]

/-- Edges that are numbered by their positions have different ids. -/
theorem nodup_of_edgeIds {edges : List Edge}
    (h : ∀ (j : Nat) (e : Edge), edges[j]? = some e → e.id = j) : (edges.map Edge.id).Nodup := by
  have : edges.map Edge.id = List.range edges.length := by
    refine List.ext_getElem (by simp) fun j hj _ => ?_
    have hj' : j < edges.length := by simpa using hj
    simpa using h j _ (List.getElem?_eq_getElem hj')
  rw [this]
  exact List.nodup_range

namespace Linked

variable {a : Analysis} (h : Linked a)
include h

theorem getElem?_id {e : Edge} (he : e ∈ a.edges) : a.edges[e.id]? = some e := by
  obtain ⟨j, hj⟩ := List.mem_iff_getElem?.1 he
  rw [h.edgeIds j e hj]
  exact hj

theorem eq_of_id {e d : Edge} (he : e ∈ a.edges) (hd : d ∈ a.edges) (hid : e.id = d.id) : e = d := by
  have heq := h.getElem?_id he
  rw [hid, h.getElem?_id hd] at heq
  exact (Option.some.inj heq).symm

theorem id_mem_edgesInto {e : Edge} (he : e ∈ a.edges) {i : Nat} :
    e.id ∈ (a.edgesInto i).map Edge.id ↔ e.target = some i := by
  constructor
  · intro hid
    obtain ⟨d, hd, hde⟩ := List.mem_map.1 hid
    obtain ⟨hd, ht⟩ := mem_edgesInto.1 hd
    exact h.eq_of_id hd he hde ▸ ht
  · exact fun ht => List.mem_map_of_mem (mem_edgesInto.2 ⟨he, ht⟩)

theorem id_mem_edgesFrom {e : Edge} (he : e ∈ a.edges) {i : Nat} :
    e.id ∈ (a.edgesFrom i).map Edge.id ↔ e.source = some i := by
  constructor
  · intro hid
    obtain ⟨d, hd, hde⟩ := List.mem_map.1 hid
    obtain ⟨hd, hs⟩ := mem_edgesFrom.1 hd
    exact h.eq_of_id hd he hde ▸ hs
  · exact fun hs => List.mem_map_of_mem (mem_edgesFrom.2 ⟨he, hs⟩)

theorem incoming_getElem? {i : Nat} (hi : i < a.nodes.length) :
    a.incoming[i]? = some ((a.edgesInto i).map Edge.id) := by
  simp [h.incoming, incomingOf, hi, edgesInto]

theorem outgoing_getElem? {i : Nat} (hi : i < a.nodes.length) :
    a.outgoing[i]? = some ((a.edgesFrom i).map Edge.id) := by
  simp [h.outgoing, outgoingOf, hi, edgesFrom]

theorem nodup_ids : (a.edges.map Edge.id).Nodup := nodup_of_edgeIds h.edgeIds

theorem nodup_edgesInto (i : Nat) : ((a.edgesInto i).map Edge.id).Nodup :=
  h.nodup_ids.sublist (List.filter_sublist.map _)

theorem nodup_edgesFrom (i : Nat) : ((a.edgesFrom i).map Edge.id).Nodup :=
  h.nodup_ids.sublist (List.filter_sublist.map _)

/-- The source of an edge into a node is one of its producers. -/
theorem source_mem_producersAt {e : Edge} {i s : Nat} (he : e ∈ a.edges) (ht : e.target = some i)
    (hs : e.source = some s) : s ∈ Plan.producersAt a.nodes i := by
  have hi := h.target_lt e he i ht
  have hn := List.getElem?_eq_getElem hi
  have hin : e.origin ∈ a.nodes[i].inputs.map Input.origin := by
    rw [← h.inputs i _ hn]
    exact List.mem_map_of_mem (mem_edgesInto.2 ⟨he, ht⟩)
  obtain ⟨x, hx, ho⟩ := List.mem_map.1 hin
  simp only [Edge.origin, Input.origin, Prod.mk.injEq, hs, Option.some.injEq] at ho
  exact Plan.mem_producersAt.2 ⟨_, hn, x, hx, ho.1⟩

end Linked

/-- No edge leads from a planned node to itself. -/
theorem Planned.ne_of_edge {a : Analysis} (hp : Planned a) (hl : Linked a) {e : Edge} {i : Nat}
    (hi : i ∈ a.plan) (he : e ∈ a.edges) (ht : e.target = some i) : e.source ≠ some i := by
  intro hs
  have := (hp.ordered.idxOf_lt hi (hl.source_mem_producersAt he ht hs)).2
  exact absurd this (Nat.lt_irrefl _)

/-- The edges around a planned node are all different. -/
theorem Planned.nodup_around {a : Analysis} (hp : Planned a) (hl : Linked a) {i : Nat}
    (hi : i ∈ a.plan) :
    ((a.edgesInto i).map Edge.id ++ (a.edgesFrom i).map Edge.id).Nodup := by
  refine List.nodup_append.2 ⟨hl.nodup_edgesInto i, hl.nodup_edgesFrom i, ?_⟩
  rintro j hj k hk rfl
  obtain ⟨e, he, rfl⟩ := List.mem_map.1 hj
  obtain ⟨d, hd, hde⟩ := List.mem_map.1 hk
  obtain ⟨he, ht⟩ := mem_edgesInto.1 he
  obtain ⟨hd, hs⟩ := mem_edgesFrom.1 hd
  cases hl.eq_of_id hd he hde
  exact hp.ne_of_edge hl hi he ht hs

/-! ### A new analysis -/

theorem checkIds_eq_ok : ∀ {nodes : List Node} {position : Nat}, checkIds position nodes = .ok () →
    ∀ i n, nodes[i]? = some n → n.id = ((position + i : Nat) : Int)
  | [], _, _, _, _, hn => by simp at hn
  | m :: rest, position, h, i, n, hn => by
    simp only [checkIds] at h
    split at h
    · rename_i hid
      cases i with
      | zero =>
        cases hn
        simpa using hid
      | succ i =>
        have tail := checkIds_eq_ok h i n hn
        rw [tail]
        congr 1
        omega
    · cases h

theorem checkIds_of_ids : ∀ {nodes : List Node} {position : Nat},
    (∀ i n, nodes[i]? = some n → n.id = ((position + i : Nat) : Int)) → checkIds position nodes = .ok ()
  | [], _, _ => rfl
  | n :: rest, position, h => by
    have htail : checkIds (position + 1) rest = .ok () := checkIds_of_ids fun i m hm => by
      have hid := h (i + 1) m hm
      omega
    have hid : n.id = (position : Int) := h 0 n rfl
    rw [checkIds, if_pos hid, htail]

theorem checkProducers_eq_ok {count : Nat} : ∀ {nodes : List Node}, checkProducers count nodes = .ok () →
    ∀ n ∈ nodes, n.danglingProducer? count = none
  | [], _, _, hn => by cases hn
  | m :: rest, h, n, hn => by
    simp only [checkProducers] at h
    split at h
    · cases h
    · rename_i hm
      rcases List.mem_cons.1 hn with rfl | hn
      · exact hm
      · exact checkProducers_eq_ok h n hn

theorem checkProducers_of_resolved {count : Nat} : ∀ {nodes : List Node},
    (∀ n ∈ nodes, n.danglingProducer? count = none) → checkProducers count nodes = .ok ()
  | [], _ => rfl
  | n :: rest, h => by
    rw [checkProducers, h n (.head _), checkProducers_of_resolved fun m hm => h m (.tail _ hm)]

theorem length_freshEdges : ∀ {links : List (Nat × Int × Option Nat)} {id : Nat},
    (freshEdges id links).length = links.length
  | [], _ => rfl
  | _ :: _, _ => congrArg (· + 1) length_freshEdges

theorem freshEdges_getElem? : ∀ {links : List (Nat × Int × Option Nat)} {id j : Nat},
    (freshEdges id links)[j]? =
      links[j]?.map fun l => ⟨id + j, some l.1, l.2.1, l.2.2, .unknown⟩
  | [], _, _ => rfl
  | l :: links, id, 0 => by simp [freshEdges]
  | l :: links, id, j + 1 => by
    simp only [freshEdges, List.getElem?_cons_succ, freshEdges_getElem?]
    congr 2
    funext l
    congr 1
    omega

theorem mem_freshEdges {links : List (Nat × Int × Option Nat)} {id : Nat} {e : Edge}
    (h : e ∈ freshEdges id links) : ∃ l ∈ links, e.source = some l.1 ∧ e.port = l.2.1 ∧
      e.target = l.2.2 ∧ e.fact = .unknown := by
  obtain ⟨j, hj⟩ := List.mem_iff_getElem?.1 h
  rw [freshEdges_getElem?] at hj
  obtain ⟨l, hl, rfl⟩ := Option.map_eq_some_iff.1 hj
  exact ⟨l, List.mem_of_getElem? hl, rfl, rfl, rfl, rfl⟩

theorem freshEdges_into {i : Nat} : ∀ (links : List (Nat × Int × Option Nat)) (id : Nat),
    ((freshEdges id links).filter fun e => e.target = some i).map Edge.origin =
      (links.filter fun l => l.2.2 = some i).map fun l => (some l.1, l.2.1)
  | [], _ => rfl
  | l :: links, id => by
    have tail := freshEdges_into (i := i) links (id + 1)
    by_cases h : l.2.2 = some i
    · simp [freshEdges, h, Edge.origin, tail]
    · simp [freshEdges, h, tail]

/-- The links of the inputs of a node. -/
def inputLinks (n : Node) : List (Nat × Int × Option Nat) :=
  n.inputs.map fun x => (x.producer.toNat, x.slot.getD 0, some n.id.toNat)

theorem links_eq (nodes : List Node) (output : Nat) :
    links nodes output = nodes.flatMap inputLinks ++ [(output, 0, none)] := rfl

theorem filter_inputLinks (n : Node) (k : Nat) :
    (inputLinks n).filter (fun l => l.2.2 = some k) = if n.id.toNat = k then inputLinks n else [] := by
  split
  · rename_i h
    refine List.filter_eq_self.2 fun l hl => ?_
    obtain ⟨x, -, rfl⟩ := List.mem_map.1 hl
    simp [h]
  · rename_i h
    refine List.filter_eq_nil_iff.2 fun l hl => ?_
    obtain ⟨x, -, rfl⟩ := List.mem_map.1 hl
    simpa using h

/-- Of the links of all inputs those into one node are the links of its inputs. -/
theorem links_into {n : Node} : ∀ {nodes : List Node} {position i : Nat},
    (∀ (j : Nat) (m : Node), nodes[j]? = some m → m.id = ((position + j : Nat) : Int)) →
    nodes[i]? = some n →
    (nodes.flatMap inputLinks).filter (fun l => l.2.2 = some (position + i)) = inputLinks n
  | [], _, _, _, hn => by simp at hn
  | _ :: rest, position, 0, hids, hn => by
    cases hn
    have hid := hids 0 n rfl
    have hrest : (rest.flatMap inputLinks).filter (fun l => l.2.2 = some position) = [] := by
      refine List.filter_eq_nil_iff.2 fun l hl => ?_
      obtain ⟨n, hn, hl⟩ := List.mem_flatMap.1 hl
      obtain ⟨x, -, rfl⟩ := List.mem_map.1 hl
      obtain ⟨j, hj⟩ := List.mem_iff_getElem?.1 hn
      have := hids (j + 1) n hj
      simp only [decide_eq_true_eq, Option.some.injEq]
      omega
    simp only [List.flatMap_cons, List.filter_append, Nat.add_zero, hrest, List.append_nil,
      filter_inputLinks]
    exact if_pos (by omega)
  | m :: rest, position, i + 1, hids, hn => by
    have hid := hids 0 m rfl
    have hids' (j : Nat) (m : Node) (hm : rest[j]? = some m) : m.id = ((position + 1 + j : Nat) : Int) := by
      rw [hids (j + 1) m hm]
      congr 1
      omega
    have tail := links_into hids' hn
    rw [Nat.add_right_comm] at tail
    simp only [List.flatMap_cons, List.filter_append, filter_inputLinks]
    rw [if_neg (by omega), List.nil_append]
    exact tail

theorem start_eq_ok {model : Model} {output : Int} {limit : Option Nat} {a : Analysis}
    (h : start model output limit = .ok a) :
    0 ≤ output ∧ output < model.nodes.length ∧ checkIds 0 model.nodes = .ok () ∧
      checkProducers model.nodes.length model.nodes = .ok () ∧
      ∃ plan, Plan.ofNodes model.nodes [output] = .ok plan ∧
        a = { nodes := model.nodes
              edges := freshEdges 0 (links model.nodes output.toNat)
              incoming := incomingOf model.nodes.length (freshEdges 0 (links model.nodes output.toNat))
              outgoing := outgoingOf model.nodes.length (freshEdges 0 (links model.nodes output.toNat))
              output, plan, passIndex := 0, stepIndex := 0, forward := true, roundLimit := limit } := by
  unfold start at h
  simp only at h
  split at h
  · simp [bind, Except.bind, throw, throwThe, MonadExceptOf.throw] at h
  · rename_i hout
    simp only [bind_eq_ok_iff] at h
    obtain ⟨_, hids, _, hproducers, plan, hplan, h⟩ := h
    cases h
    exact ⟨by omega, by omega, hids, hproducers, plan, hplan, rfl⟩

/-- Where nodes are numbered by their positions, all inputs are nodes and there is a
plan, there is an analysis. -/
theorem exists_start {model : Model} {output : Int} {limit : Option Nat} {plan : List Nat}
    (hout : 0 ≤ output ∧ output < model.nodes.length)
    (hids : ∀ (i : Nat) (n : Node), model.nodes[i]? = some n → n.id = (i : Int))
    (hresolved : ∀ i, Plan.Resolved model.nodes i) (hplan : Plan.ofNodes model.nodes [output] = .ok plan) :
    ∃ a, start model output limit = .ok a := by
  have hchecked : checkIds 0 model.nodes = .ok () :=
    checkIds_of_ids fun i n hn => by rw [hids i n hn, Nat.zero_add]
  have hproducers : checkProducers model.nodes.length model.nodes = .ok () :=
    checkProducers_of_resolved fun n hn => by
      obtain ⟨i, hi⟩ := List.mem_iff_getElem?.1 hn
      exact (Plan.resolved_iff hi).1 (hresolved i)
  have hrange : ¬ (output < 0 ∨ (model.nodes.length : Int) ≤ output) := by omega
  unfold start
  simp only [hrange, if_false, hchecked, hproducers, hplan]
  exact ⟨_, rfl⟩

/-- A new analysis is well formed, nothing is known in it, and its plan lists
what the output needs. -/
theorem start_spec {model : Model} {output : Int} {limit : Option Nat} {a : Analysis}
    (h : start model output limit = .ok a) :
    WellFormed a ∧ Plan.Valid a.nodes a.output a.plan ∧ (∀ e ∈ a.edges, e.fact = .unknown) ∧
      a.nodes = model.nodes ∧ a.output = output ∧ a.roundLimit = limit := by
  obtain ⟨h0, hlt, hids, hproducers, plan, hplan, rfl⟩ := start_eq_ok h
  have hvalid := Plan.ofNodes_spec hplan
  have hresolved : ∀ i, Plan.Resolved model.nodes i := fun i n hn =>
    Plan.danglingProducer?_eq_none_iff.1
      (checkProducers_eq_ok hproducers n (List.mem_of_getElem? hn))
  have hid : ∀ (i : Nat) (n : Node), model.nodes[i]? = some n → n.id = ((0 + i : Nat) : Int) :=
    checkIds_eq_ok hids
  have hlink : ∀ l ∈ links model.nodes output.toNat, l.1 < model.nodes.length ∧
      ∀ i, l.2.2 = some i → i < model.nodes.length := by
    intro l hl
    rw [links_eq, List.mem_append, List.mem_singleton] at hl
    rcases hl with hl | rfl
    · obtain ⟨n, hn, hl⟩ := List.mem_flatMap.1 hl
      obtain ⟨x, hx, rfl⟩ := List.mem_map.1 hl
      obtain ⟨i, hi⟩ := List.mem_iff_getElem?.1 hn
      have hx := hresolved i n hi x hx
      have hn := hid i n hi
      have hi := (List.getElem?_eq_some_iff.1 hi).1
      refine ⟨by omega, fun k hk => ?_⟩
      cases hk
      omega
    · exact ⟨by simp only; omega, fun _ h => nomatch h⟩
  refine ⟨?_, hvalid, fun e he => ?_, rfl, rfl, rfl⟩
  · refine { Planned.of_valid hvalid with
      ids := fun i n hn => by simpa using hid i n hn
      resolved := hresolved
      edgeIds := fun j e he => ?_
      incoming := rfl
      outgoing := rfl
      inputs := fun i n hn => ?_
      source_lt := fun e he i hi => ?_
      target_lt := fun e he i hi => ?_
      terminal := ?_
      output_lt := ⟨h0, hlt⟩
      stepIndex_lt := List.length_pos_of_mem ((hvalid.mem_iff _).2 .output) }
    · rw [freshEdges_getElem?] at he
      obtain ⟨l, -, rfl⟩ := Option.map_eq_some_iff.1 he
      simp
    · have hinto := links_into hid hn
      rw [Nat.zero_add] at hinto
      rw [freshEdges_into, links_eq, List.filter_append, hinto]
      simp [inputLinks, Input.origin]
    · obtain ⟨l, hl, hs, -⟩ := mem_freshEdges he
      cases hs.symm.trans hi
      exact (hlink l hl).1
    · obtain ⟨l, hl, -, -, ht, -⟩ := mem_freshEdges he
      exact (hlink l hl).2 i (ht.symm.trans hi)
    · have hmem : (output.toNat, (0 : Int), none) ∈ links model.nodes output.toNat := by simp [links_eq]
      obtain ⟨j, hj⟩ := List.mem_iff_getElem?.1 hmem
      refine ⟨_, List.mem_of_getElem? (by rw [freshEdges_getElem?, hj]; rfl), rfl, rfl⟩
  · obtain ⟨l, -, -, -, -, hf⟩ := mem_freshEdges he
    exact hf

/-- The edges of a new analysis leave their nodes at the ports that inputs name,
and the output at the first. -/
theorem start_port {model : Model} {output : Int} {limit : Option Nat} {a : Analysis}
    (h : start model output limit = .ok a) {e : Edge} (he : e ∈ a.edges) :
    e.port = 0 ∨ ∃ n ∈ model.nodes, ∃ x ∈ n.inputs, e.port = x.slot.getD 0 := by
  obtain ⟨-, -, -, -, plan, -, rfl⟩ := start_eq_ok h
  obtain ⟨l, hl, -, hp, -⟩ := mem_freshEdges he
  rw [links_eq, List.mem_append, List.mem_singleton] at hl
  rcases hl with hl | rfl
  · obtain ⟨n, hn, hl⟩ := List.mem_flatMap.1 hl
    obtain ⟨x, hx, rfl⟩ := List.mem_map.1 hl
    exact .inr ⟨n, hn, x, hx, hp⟩
  · exact .inl hp

end Analysis

end EdgeFacts
