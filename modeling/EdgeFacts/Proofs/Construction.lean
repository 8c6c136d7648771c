/-
# Which graphs are analysed

There is an analysis of a model for an output exactly if the output is a node, ids
are positions, all inputs of all nodes exist and what the output needs has no cycle
(`Analysis.Analysable`). What is wrong is told in this order, and of the nodes with
the same fault the least is told (`Analysis.Refused`). A node that the output does
not need has to have its id and its inputs as well, but may lie on a cycle. The
first two faults are told as references and the other two as faults of the plan,
although only the last one is found by the planner. In a valid model there are no
faults of ids and inputs.

Key definitions: `Failure.IsReference`, `Analysis.Misplaced`, `Analysis.Analysable`,
`Analysis.Refused`.
Key theorems: `Analysis.refused_of_start`, `Analysis.exists_start_iff`,
`Analysis.edges_of_start`, `Analysis.start_classified`.
-/
import EdgeFacts.Proofs.Consistent
import EdgeFacts.Proofs.Unplannable

namespace EdgeFacts

/-- Whether a failure is told as one of a reference to a node. -/
def Failure.IsReference (e : Failure) (node : Int) : Prop :=
  ∃ r, e.report? = some r ∧ r.kind = .reference (.int node) ∧ r.code = "EREF"

namespace Analysis

open Plan (IsNode Dangles Needed Feeds BehindCycle)

variable {nodes : List Node} {output : Int}

/-- Whether the id of a node is not its position. -/
def Misplaced (nodes : List Node) (i : Nat) : Prop := ∃ n, nodes[i]? = some n ∧ n.id ≠ i

/-- What there has to be for an analysis: the output, ids that are positions, all
inputs of all nodes, and no cycle through a node that the output needs. -/
structure Analysable (nodes : List Node) (output : Int) : Prop where
  isNode : IsNode nodes output
  placed : ∀ i, ¬ Misplaced nodes i
  inputs : ∀ i, ¬ Dangles nodes i
  acyclic : ∀ i, Needed nodes [output] i → ¬ Relation.TransGen (Feeds nodes) i i

/-- What is told of a graph that is not analysed: the first of the four faults that
it has, and the least of the nodes that have it. -/
inductive Refused (nodes : List Node) (output : Int) (e : Failure) : Prop
  | output : ¬ IsNode nodes output → e.IsReference output → Refused nodes output e
  | misplaced (i : Nat) (n : Node) : IsNode nodes output → IsLeast {i | Misplaced nodes i} i →
      nodes[i]? = some n → e.IsReference n.id → Refused nodes output e
  | dangling (i : Nat) : IsNode nodes output → (∀ j, ¬ Misplaced nodes j) →
      IsLeast {i | Dangles nodes i} i → e.IsPlan "EDANGLING" i → Refused nodes output e
  | cycle (k : Nat) : IsNode nodes output → (∀ j, ¬ Misplaced nodes j) → (∀ j, ¬ Dangles nodes j) →
      IsLeast {i | Needed nodes [output] i ∧ BehindCycle nodes i} k → e.IsPlan "ECYCLE" k →
      Refused nodes output e

/-- One edge for each input, in the order of the nodes and of the inputs of each, from
its producer and the slot that it names or else the slot 0, and one that leaves the
output. Nothing is known on them. -/
def blankEdges (nodes : List Node) (output : Int) : List Edge :=
  let ends : List (Nat × Int × Option Nat) := nodes.zipIdx.flatMap (fun (n, i) =>
    n.inputs.map fun x => (x.producer.toNat, x.slot.getD 0, some i)) ++ [(output.toNat, 0, none)]
  ends.mapIdx fun j (source, port, target) => ⟨j, some source, port, target, .unknown⟩

/-! ### The checks -/

theorem dangles_iff_exists {i : Nat} :
    Dangles nodes i ↔ ∃ n, nodes[i]? = some n ∧ n.danglingProducer? nodes.length ≠ none := by
  constructor
  · intro h
    obtain ⟨-, ⟨n, hn, -⟩, -⟩ := id h
    exact ⟨n, hn, by rwa [Plan.dangles_iff, Plan.resolved_iff hn] at h⟩
  · rintro ⟨n, hn, hd⟩
    rwa [Plan.dangles_iff, Plan.resolved_iff hn]

theorem not_misplaced_iff :
    (∀ i, ¬ Misplaced nodes i) ↔ ∀ (i : Nat) (n : Node), nodes[i]? = some n → n.id = i := by
  simp [Misplaced]

theorem checkIds_error {e : Failure} : ∀ {nodes : List Node} {position : Nat},
    checkIds position nodes = .error e →
    ∃ (i : Nat) (n : Node), nodes[i]? = some n ∧ n.id ≠ ((position + i : Nat) : Int) ∧
      (∀ j < i, ∀ m, nodes[j]? = some m → m.id = ((position + j : Nat) : Int)) ∧
      e = .because (.misplacedNode n.name n.id (position + i))
  | [], _, h => by cases h
  | n :: rest, position, h => by
    rw [checkIds] at h
    by_cases hid : n.id = position
    · rw [if_pos hid] at h
      obtain ⟨i, m, hm, hne, hbefore, rfl⟩ := checkIds_error h
      refine ⟨i + 1, m, hm, by omega, fun j hj k hk => ?_, by rw [Nat.add_right_comm, Nat.add_assoc]⟩
      cases j with
      | zero =>
        cases hk
        exact hid
      | succ j =>
        have := hbefore j (by omega) k hk
        omega
    · rw [if_neg hid] at h
      cases h
      exact ⟨0, n, rfl, hid, fun j hj => absurd hj (Nat.not_lt_zero j), rfl⟩

theorem checkProducers_error {count : Nat} {e : Failure} : ∀ {nodes : List Node},
    checkProducers count nodes = .error e →
    ∃ (i : Nat) (n : Node) (p : Int), nodes[i]? = some n ∧ n.danglingProducer? count = some p ∧
      (∀ j < i, ∀ m, nodes[j]? = some m → m.danglingProducer? count = none) ∧
      e = .because (.danglingInput n.name p n.id)
  | [], h => by cases h
  | n :: rest, h => by
    rw [checkProducers] at h
    cases hd : n.danglingProducer? count with
    | some p =>
      rw [hd] at h
      cases h
      exact ⟨0, n, p, rfl, hd, fun j hj => absurd hj (Nat.not_lt_zero j), rfl⟩
    | none =>
      rw [hd] at h
      obtain ⟨i, m, p, hm, hp, hbefore, rfl⟩ := checkProducers_error h
      refine ⟨i + 1, m, p, hm, hp, fun j hj k hk => ?_, rfl⟩
      cases j with
      | zero =>
        cases hk
        exact hd
      | succ j => exact hbefore j (by omega) k hk

theorem not_misplaced_of_checkIds (h : checkIds 0 nodes = .ok ()) : ∀ i, ¬ Misplaced nodes i := by
  rw [not_misplaced_iff]
  simpa using checkIds_eq_ok h

theorem not_dangles_of_checkProducers (h : checkProducers nodes.length nodes = .ok ()) :
    ∀ i, ¬ Dangles nodes i := by
  intro i hdangles
  obtain ⟨n, hn, hd⟩ := dangles_iff_exists.1 hdangles
  exact hd (checkProducers_eq_ok h n (List.mem_of_getElem? hn))

theorem isLeast_misplaced {e : Failure} (h : checkIds 0 nodes = .error e) :
    ∃ i n, IsLeast {i | Misplaced nodes i} i ∧ nodes[i]? = some n ∧
      e = .because (.misplacedNode n.name n.id i) := by
  obtain ⟨i, n, hn, hne, hbefore, rfl⟩ := checkIds_error h
  simp only [Nat.zero_add] at hne hbefore ⊢
  refine ⟨i, n, ⟨⟨n, hn, hne⟩, fun j hj => ?_⟩, hn, rfl⟩
  obtain ⟨m, hm, hmne⟩ := hj
  by_contra hlt
  exact hmne (hbefore j (by omega) m hm)

theorem isLeast_dangles {e : Failure} (h : checkProducers nodes.length nodes = .error e) :
    ∃ i n p, IsLeast {i | Dangles nodes i} i ∧ nodes[i]? = some n ∧
      e = .because (.danglingInput n.name p n.id) := by
  obtain ⟨i, n, p, hn, hp, hbefore, rfl⟩ := checkProducers_error h
  refine ⟨i, n, p, ⟨dangles_iff_exists.2 ⟨n, hn, by simp [hp]⟩, fun j hj => ?_⟩, hn, rfl⟩
  obtain ⟨m, hm, hd⟩ := dangles_iff_exists.1 hj
  by_contra hlt
  exact hd (hbefore j (by omega) m hm)

/-! ### What is told -/

/-- A cause with a node and no code of its own is told as one of its kind. -/
theorem isReference_because {cause : Cause} {n : Int} (hkind : cause.kind = .reference (.int n))
    (hown : cause.ownCode = "") : (Failure.because cause).IsReference n := by
  refine ⟨_, rfl, hkind, ?_⟩
  simp [hown, Report.make, hkind, ReportKind.hasOwnCode, ReportKind.defaultCode]

theorem isPlan_danglingInput {name : String} {p v id : Int} {code : String} :
    (Failure.because (.danglingInput name p id)).IsPlan code v ↔ code = "EDANGLING" ∧ v = id :=
  Plan.isPlan_because rfl rfl

/-- Where there is no analysis a check fails, and those before it succeed. -/
theorem start_error {model : Model} {limit : Option Nat} {e : Failure} (h : start model output limit = .error e) :
    ¬ IsNode model.nodes output ∧ e = .because (.noNodeAt output) ∨
    IsNode model.nodes output ∧ (checkIds 0 model.nodes = .error e ∨ checkIds 0 model.nodes = .ok () ∧
      (checkProducers model.nodes.length model.nodes = .error e ∨
        checkProducers model.nodes.length model.nodes = .ok () ∧
          Plan.ofNodes model.nodes [output] = .error e)) := by
  unfold start at h
  simp only at h
  split at h
  case isTrue hout =>
    cases h
    refine .inl ⟨fun hnode => ?_, rfl⟩
    unfold IsNode at hnode
    omega
  case isFalse hout =>
    refine .inr ⟨⟨by omega, by omega⟩, ?_⟩
    simp only [bind_eq_error_iff, pure_eq_ok, reduceCtorEq, and_false, exists_false, or_false] at h
    rcases h with h | ⟨_, hids, h | ⟨_, hproducers, h⟩⟩
    · exact .inl h
    · exact .inr ⟨hids, .inl h⟩
    · exact .inr ⟨hids, .inr ⟨hproducers, h⟩⟩

/-- **A graph that is not analysed is told why**: of its faults the first. -/
theorem refused_of_start {model : Model} {limit : Option Nat} {e : Failure}
    (h : start model output limit = .error e) : Refused model.nodes output e := by
  rcases start_error h with ⟨hnot, rfl⟩ | ⟨hnode, hids | ⟨hids, hproducers | ⟨hproducers, hplan⟩⟩⟩
  · exact .output hnot (isReference_because rfl rfl)
  · obtain ⟨i, n, hleast, hn, rfl⟩ := isLeast_misplaced hids
    exact .misplaced i n hnode hleast hn (isReference_because rfl rfl)
  · have hplaced := not_misplaced_of_checkIds hids
    obtain ⟨i, n, p, hleast, hn, rfl⟩ := isLeast_dangles hproducers
    have hid : n.id = i := not_misplaced_iff.1 hplaced i n hn
    exact .dangling i hnode hplaced hleast (isPlan_danglingInput.2 ⟨rfl, hid.symm⟩)
  · have hplaced := not_misplaced_of_checkIds hids
    have hinputs := not_dangles_of_checkProducers hproducers
    -- the planner finds no fault of the first kinds, which have been looked for
    rcases Plan.ofNodes_error hplan with ⟨o, hfind, -⟩ | ⟨-, ⟨i, n, p, -, hn, hd, -⟩ | ⟨-, k, hk, rfl⟩⟩
    · obtain rfl : o = output := List.mem_singleton.1 (List.mem_of_find?_eq_some hfind)
      exact absurd hnode (by simpa using List.find?_some hfind)
    · exact absurd (dangles_iff_exists.2 ⟨n, hn, by simp [hd]⟩) (hinputs i)
    · exact .cycle k hnode hplaced hinputs hk (Plan.isPlan_cycle.2 ⟨rfl, rfl⟩)

theorem Refused.not_analysable {e : Failure} (h : Refused nodes output e) : ¬ Analysable nodes output := by
  intro ha
  cases h with
  | output hnot _ => exact hnot ha.isNode
  | misplaced i n _ hleast _ _ => exact ha.placed i hleast.1
  | dangling i _ _ hleast _ => exact ha.inputs i hleast.1
  | cycle k _ _ _ hleast _ =>
    obtain ⟨c, hneed, hcycle⟩ := hleast.1.1.exists_cycle hleast.1.2
    exact ha.acyclic c hneed hcycle

/-! ### What is analysed -/

theorem analysable_of_start {model : Model} {limit : Option Nat} {a : Analysis}
    (h : start model output limit = .ok a) : Analysable model.nodes output := by
  obtain ⟨h0, hlt, hids, hproducers, plan, hplan, -⟩ := start_eq_ok h
  exact ⟨⟨h0, hlt⟩, not_misplaced_of_checkIds hids, not_dangles_of_checkProducers hproducers,
    (Plan.plannable_of_ofNodes hplan).acyclic⟩

theorem exists_start_iff {model : Model} {limit : Option Nat} :
    (∃ a, start model output limit = .ok a) ↔ Analysable model.nodes output := by
  refine ⟨fun ⟨a, h⟩ => analysable_of_start h, fun h => ?_⟩
  cases hs : start model output limit with
  | ok a => exact ⟨a, rfl⟩
  | error e => exact absurd h (refused_of_start hs).not_analysable

theorem placed_of_validate {model : Model} (h : model.validate = .ok ()) :
    (∀ i, ¬ Misplaced model.nodes i) ∧ ∀ i, ¬ Dangles model.nodes i := by
  obtain ⟨hids, -, hinputs⟩ := Model.validate_eq_ok_iff.1 h
  refine ⟨not_misplaced_iff.2 hids, ?_⟩
  rintro i ⟨p, ⟨n, hn, hp⟩, hnot⟩
  obtain ⟨x, hx, rfl⟩ := List.mem_map.1 hp
  exact hnot (hinputs n (List.mem_of_getElem? hn) x hx)

/-! ### The edges of a new analysis -/

theorem freshEdges_eq_mapIdx (links : List (Nat × Int × Option Nat)) :
    freshEdges 0 links = links.mapIdx fun j l => ⟨j, some l.1, l.2.1, l.2.2, .unknown⟩ := by
  refine List.ext_getElem? fun j => ?_
  rw [freshEdges_getElem?, List.getElem?_mapIdx]
  simp only [Nat.zero_add]

/-- Where ids are positions links lead to positions. -/
theorem flatMap_inputLinks : ∀ {nodes : List Node} {position : Nat},
    (∀ (i : Nat) (n : Node), nodes[i]? = some n → n.id = ((position + i : Nat) : Int)) →
    nodes.flatMap inputLinks = (nodes.zipIdx position).flatMap fun (n, i) =>
      n.inputs.map fun x => (x.producer.toNat, x.slot.getD 0, some i)
  | [], _, _ => rfl
  | n :: rest, position, h => by
    have hid : n.id.toNat = position := by
      have := h 0 n rfl
      omega
    have hids : ∀ (i : Nat) (m : Node), rest[i]? = some m → m.id = ((position + 1 + i : Nat) : Int) := by
      intro i m hm
      have := h (i + 1) m hm
      omega
    rw [List.zipIdx_cons, List.flatMap_cons, List.flatMap_cons, flatMap_inputLinks hids, inputLinks, hid]

theorem edges_of_start {model : Model} {limit : Option Nat} {a : Analysis}
    (h : start model output limit = .ok a) : a.edges = blankEdges model.nodes output := by
  obtain ⟨-, -, hids, -, plan, -, rfl⟩ := start_eq_ok h
  rw [freshEdges_eq_mapIdx, links_eq, flatMap_inputLinks (checkIds_eq_ok hids), blankEdges]

/-! ### The classification -/

/-- **Exactly the well-formed graphs are analysed.** Take any model, valid or not, any
output and any limit of rounds. There is an analysis if and only if the output is a
node, ids are positions, all inputs of all nodes exist and no node that the output
needs lies on a cycle. Otherwise the first of these that does not hold is told: an
output that is no node and then the first misplaced id as references, then the first
node with an input that is no node, and then the least needed node behind a cycle as
faults of the plan. Of a valid model only the first and the last are told. A new
analysis has one edge per input, in order, from its producer and the slot that it names
or else the slot 0, and then one that leaves the output, and nothing is known on them. -/
theorem start_classified (model : Model) (output : Int) (limit : Option Nat) :
    ((∃ a, start model output limit = .ok a) ↔ Analysable model.nodes output) ∧
    (∀ e, start model output limit = .error e → Refused model.nodes output e) ∧
    (model.validate = .ok () → ∀ e, start model output limit = .error e →
      ¬ IsNode model.nodes output ∧ e.IsReference output ∨
      IsNode model.nodes output ∧ ∃ k : Nat, e.IsPlan "ECYCLE" k ∧
        IsLeast {i | Needed model.nodes [output] i ∧ BehindCycle model.nodes i} k) ∧
    ∀ a, start model output limit = .ok a → a.edges = blankEdges model.nodes output := by
  refine ⟨exists_start_iff, fun e => refused_of_start, fun hvalid e h => ?_, fun a => edges_of_start⟩
  obtain ⟨hplaced, hinputs⟩ := placed_of_validate hvalid
  cases refused_of_start h with
  | output hnot he => exact .inl ⟨hnot, he⟩
  | misplaced i n _ hleast _ _ => exact absurd hleast.1 (hplaced i)
  | dangling i _ _ hleast _ => exact absurd hleast.1 (hinputs i)
  | cycle k hnode _ _ hleast he => exact .inr ⟨hnode, k, he, hleast⟩

/-- In a graph with a node that feeds itself, that node is refused as an output, as one
that lies on a cycle, and another output is analysed all the same. -/
theorem crossed_classified :
    (∃ e, start ⟨Plan.crossed [0, 1]⟩ 4 none = .error e ∧ Refused (Plan.crossed [0, 1]) 4 e ∧
      ∃ k : Nat, e.IsPlan "ECYCLE" k) ∧
    ∃ a, start ⟨Plan.crossed [0, 1]⟩ 3 none = .ok a ∧ Analysable (Plan.crossed [0, 1]) 3 ∧
      a.edges.map (fun e => (e.source, e.target)) =
        [(some 2, some 0), (some 0, some 3), (some 1, some 3), (some 4, some 4), (some 3, none)] := by
  obtain ⟨-, hrefused, hvalid, -⟩ := start_classified ⟨Plan.crossed [0, 1]⟩ 4 none
  obtain ⟨hiff, -, -, hedges⟩ := start_classified ⟨Plan.crossed [0, 1]⟩ 3 none
  have herror : start ⟨Plan.crossed [0, 1]⟩ 4 none = .error (.because (.cycle 4)) := rfl
  have hok : start ⟨Plan.crossed [0, 1]⟩ 3 none = .ok _ := rfl
  refine ⟨⟨_, herror, hrefused _ herror, ?_⟩, _, hok, hiff.1 ⟨_, hok⟩, ?_⟩
  · rcases hvalid rfl _ herror with ⟨hnot, -⟩ | ⟨-, k, he, -⟩
    · exact absurd (by decide) hnot
    · exact ⟨k, he⟩
  · rw [hedges _ hok]
    rfl

/-- An input that is no node is told, also of a node that the output does not need. -/
example : start ⟨[⟨0, "x", "Placeholder", .placeholder .unknown, []⟩, ⟨1, "y", "Relu", .relu, [⟨7, none⟩]⟩]⟩ 0
    none = .error (.because (.danglingInput "y" 7 1)) :=
  rfl

end Analysis

end EdgeFacts
