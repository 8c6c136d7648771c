/-
# Pruning keeps an analysis well formed

What is kept is renumbered without gaps: the new number of an item is the number
of kept items before it (`newIndex`). The plan of a well-formed analysis lists
the producers of its nodes, so pruning never fails (`Analysis.prune_eq`); what
it leaves is the part of the graph around the plan (`Analysis.pruned`), well
formed again, with the facts that were there.

Key definitions: `newIndex`, `Analysis.pruned`.
Key theorems: `kept_getElem?`, `map_newIndex`, `Analysis.prune_eq`,
`Analysis.pruned_wellFormed`.
-/
import EdgeFacts.Analysis.Prune
import EdgeFacts.Proofs.WellFormed

namespace EdgeFacts

/-! ### What is kept -/

/-- The number of kept items before a position. -/
def newIndex (used : List Bool) (i : Nat) : Nat := (used.take i).count true

theorem newIndex_zero (used : List Bool) : newIndex used 0 = 0 := rfl

theorem newIndex_succ (u : Bool) (used : List Bool) (i : Nat) :
    newIndex (u :: used) (i + 1) = newIndex used i + if u then 1 else 0 := by
  cases u <;> simp [newIndex]

theorem newIndex_lt {used : List Bool} : ∀ {i j : Nat}, used[i]? = some true → i < j →
    newIndex used i < newIndex used j := by
  induction used with
  | nil => intro i j hi; simp at hi
  | cons u used ih =>
    intro i j hi hij
    obtain ⟨j, rfl⟩ : ∃ k, j = k + 1 := ⟨j - 1, by omega⟩
    cases i with
    | zero =>
      have hu : u = true := by simpa using hi
      rw [newIndex_zero, newIndex_succ, hu]
      exact Nat.succ_pos _
    | succ i =>
      have := ih (by simpa using hi) (Nat.lt_of_succ_lt_succ hij)
      rw [newIndex_succ, newIndex_succ]
      omega

/-- Different kept items have different new numbers. -/
theorem newIndex_inj {used : List Bool} {i j : Nat} (hi : used[i]? = some true) (hj : used[j]? = some true)
    (h : newIndex used i = newIndex used j) : i = j := by
  rcases Nat.lt_trichotomy i j with hlt | heq | hlt
  · exact absurd h (Nat.ne_of_lt (newIndex_lt hi hlt))
  · exact heq
  · exact absurd h.symm (Nat.ne_of_lt (newIndex_lt hj hlt))

theorem denseMapping_getElem? : ∀ (used : List Bool) (next i : Nat), (denseMapping next used)[i]? =
    used[i]?.map fun u => if u then some (next + newIndex used i) else none
  | [], _, _ => rfl
  | true :: used, next, 0 => rfl
  | false :: used, next, 0 => rfl
  | true :: used, next, i + 1 => by
    rw [denseMapping, List.getElem?_cons_succ, denseMapping_getElem? used, newIndex_succ]
    simp only [List.getElem?_cons_succ, if_true, Nat.add_assoc, Nat.add_comm 1]
  | false :: used, next, i + 1 => by
    rw [denseMapping, List.getElem?_cons_succ, denseMapping_getElem? used, newIndex_succ]
    rfl

theorem length_denseMapping : ∀ (used : List Bool) (next : Nat),
    (denseMapping next used).length = used.length
  | [], _ => rfl
  | true :: used, next => congrArg (· + 1) (length_denseMapping used (next + 1))
  | false :: used, next => congrArg (· + 1) (length_denseMapping used next)

namespace Analysis

variable {α β : Type}

/-- A kept item is found at its new number. -/
theorem kept_getElem? : ∀ {used : List Bool} {xs : List α} {i : Nat}, used.length = xs.length →
    used[i]? = some true → (kept used xs)[newIndex used i]? = xs[i]?
  | true :: used, x :: xs, 0, _, _ => rfl
  | true :: used, x :: xs, i + 1, hl, hi => by
    rw [newIndex_succ, if_pos rfl]
    exact kept_getElem? (Nat.succ.inj hl) (by simpa using hi)
  | false :: used, x :: xs, i + 1, hl, hi => by
    rw [newIndex_succ]
    exact kept_getElem? (Nat.succ.inj hl) (by simpa using hi)

theorem exists_of_kept : ∀ {used : List Bool} {xs : List α} {k : Nat} {x : α},
    (kept used xs)[k]? = some x → ∃ i, used[i]? = some true ∧ xs[i]? = some x ∧ newIndex used i = k
  | true :: used, y :: xs, 0, x, h => ⟨0, rfl, h, rfl⟩
  | true :: used, y :: xs, k + 1, x, h => by
    have hk : (kept used xs)[k]? = some x := h
    obtain ⟨i, hi, hx, rfl⟩ := exists_of_kept hk
    exact ⟨i + 1, hi, hx, by rw [newIndex_succ, if_pos rfl]⟩
  | false :: used, y :: xs, k, x, h => by
    have hk : (kept used xs)[k]? = some x := h
    obtain ⟨i, hi, hx, rfl⟩ := exists_of_kept hk
    exact ⟨i + 1, hi, hx, by rw [newIndex_succ]; rfl⟩
  | [], _, _, _, h => by simp [kept] at h
  | true :: _, [], _, _, h => by simp [kept] at h
  | false :: _, [], _, _, h => by simp [kept] at h

theorem kept_map (f : α → β) : ∀ (used : List Bool) (xs : List α),
    kept used (xs.map f) = (kept used xs).map f
  | [], _ => rfl
  | true :: _, [] => rfl
  | false :: _, [] => rfl
  | true :: used, x :: xs => congrArg (f x :: ·) (kept_map f used xs)
  | false :: used, _ :: xs => kept_map f used xs

/-- If all items that pass a test are kept, it picks the same items from what is kept. -/
theorem filter_kept {p : α → Bool} : ∀ {used : List Bool} {xs : List α}, used.length = xs.length →
    (∀ (i : Nat) (x : α), xs[i]? = some x → p x = true → used[i]? = some true) →
    (kept used xs).filter p = xs.filter p
  | [], [], _, _ => rfl
  | true :: used, x :: xs, hl, h => by
    have tail := filter_kept (Nat.succ.inj hl) fun i y hy hp => h (i + 1) y hy hp
    rw [kept, List.filter_cons, List.filter_cons, tail]
  | false :: used, x :: xs, hl, h => by
    have tail := filter_kept (Nat.succ.inj hl) fun i y hy hp => h (i + 1) y hy hp
    have hx : ¬ p x = true := fun hp => by simpa using h 0 x rfl hp
    rw [kept, List.filter_cons, if_neg hx, tail]

theorem length_kept : ∀ {used : List Bool} {xs : List α}, used.length = xs.length →
    (kept used xs).length = used.count true
  | [], [], _ => rfl
  | true :: used, _ :: xs, hl => by
    rw [kept, List.length_cons, length_kept (Nat.succ.inj hl), List.count_cons_self]
  | false :: used, _ :: xs, hl => by
    rw [kept, length_kept (Nat.succ.inj hl), List.count_cons_of_ne (by decide)]

/-- The new numbers of what is kept have no gaps. -/
theorem map_newIndex {used : List Bool} {xs : List α} (hl : used.length = xs.length) :
    (kept used (List.range xs.length)).map (newIndex used) = List.range (kept used xs).length := by
  have hlen : (kept used (List.range xs.length)).length = (kept used xs).length := by
    rw [length_kept hl, length_kept (by simpa using hl)]
  refine List.ext_getElem (by simp [hlen]) fun k hk hk' => ?_
  have hk₁ : k < (kept used (List.range xs.length)).length := by simpa using hk
  obtain ⟨i, hi, hx, hik⟩ := exists_of_kept (List.getElem?_eq_getElem hk₁)
  obtain ⟨hlt, hx⟩ := List.getElem?_eq_some_iff.1 hx
  rw [List.getElem_range] at hx
  rw [List.getElem_map, List.getElem_range, ← hx, hik]

theorem mapM_of_forall {ε : Type} {f : α → Except ε β} {g : α → β} {xs : List α}
    (h : ∀ x ∈ xs, f x = .ok (g x)) : xs.mapM f = .ok (xs.map g) := by
  rw [mapM_eq_ok_iff, List.forall₂_map_right_iff]
  exact List.forall₂_same.2 h

/-! ### What pruning keeps -/

theorem length_usedNodes (a : Analysis) : a.usedNodes.length = a.nodes.length := by
  simp [usedNodes]

theorem length_usedEdges (a : Analysis) : a.usedEdges.length = a.edges.length := by
  simp [usedEdges]

theorem usedNodes_getElem? {a : Analysis} (h : Planned a) {i : Nat} :
    a.usedNodes[i]? = some true ↔ i ∈ a.plan := by
  simp only [usedNodes, List.getElem?_map, Option.map_eq_some_iff, List.getElem?_eq_some_iff,
    List.length_range, List.getElem_range, List.contains_iff_mem]
  constructor
  · rintro ⟨k, ⟨-, rfl⟩, hk⟩
    exact hk
  · exact fun hi => ⟨i, ⟨h.lt i hi, rfl⟩, hi⟩

/-- Kept are the edges that touch the plan. -/
theorem usedEdges_getElem? {a : Analysis} (hl : Linked a) (h : Planned a) {e : Edge} (he : e ∈ a.edges) :
    a.usedEdges[e.id]? = some true ↔ ∃ i ∈ a.plan, e.target = some i ∨ e.source = some i := by
  have hlt := (List.getElem?_eq_some_iff.1 (hl.getElem?_id he)).1
  have hmem {i : Nat} (hi : i < a.nodes.length) :
      e.id ∈ a.incoming.getD i [] ++ a.outgoing.getD i [] ↔ e.target = some i ∨ e.source = some i := by
    rw [List.getD_eq_getElem?_getD, List.getD_eq_getElem?_getD, hl.incoming_getElem? hi,
      hl.outgoing_getElem? hi, List.mem_append]
    exact or_congr (hl.id_mem_edgesInto he) (hl.id_mem_edgesFrom he)
  simp only [usedEdges, List.getElem?_map, Option.map_eq_some_iff, List.getElem?_eq_some_iff,
    List.length_range, List.getElem_range, List.contains_iff_mem, List.mem_flatMap]
  constructor
  · rintro ⟨k, ⟨-, rfl⟩, i, hi, hj⟩
    exact ⟨i, hi, (hmem (h.lt i hi)).1 hj⟩
  · rintro ⟨i, hi, hj⟩
    exact ⟨e.id, ⟨hlt, rfl⟩, i, hi, (hmem (h.lt i hi)).2 hj⟩

/-! ### What pruning leaves -/

/-- The new number of a node, if it is kept. -/
def keptIndex? (used : List Bool) (i : Nat) : Option Nat :=
  if used[i]? = some true then some (newIndex used i) else none

theorem denseMapping_join (used : List Bool) (i : Nat) :
    ((denseMapping 0 used)[i]?).join = keptIndex? used i := by
  rw [denseMapping_getElem?, keptIndex?]
  cases used[i]? with
  | none => rfl
  | some u => cases u <;> simp

theorem keptIndex?_of_used {used : List Bool} {i : Nat} (h : used[i]? = some true) :
    keptIndex? used i = some (newIndex used i) := if_pos h

theorem keptIndex?_eq_some_iff {used : List Bool} {i k : Nat} :
    keptIndex? used i = some k ↔ used[i]? = some true ∧ newIndex used i = k := by
  simp [keptIndex?]

/-- The node with the numbers of what is kept. -/
def renumberNode (used : List Bool) (n : Node) : Node :=
  { n with
    id := (newIndex used n.id.toNat : Int)
    inputs := n.inputs.map fun x => { x with producer := (newIndex used x.producer.toNat : Int) } }

/-- The edge with the numbers of what is kept; an end at a node that is not kept is lost. -/
def renumberEdge (usedNodes usedEdges : List Bool) (e : Edge) : Edge :=
  { e with
    id := newIndex usedEdges e.id
    source := e.source.bind (keptIndex? usedNodes)
    target := e.target.bind (keptIndex? usedNodes) }

/-- The part of an analysis around its plan, renumbered. -/
def pruned (a : Analysis) : Analysis :=
  { a with
    nodes := (kept a.usedNodes a.nodes).map (renumberNode a.usedNodes)
    edges := (kept a.usedEdges a.edges).map (renumberEdge a.usedNodes a.usedEdges)
    incoming := (kept a.usedNodes a.incoming).map (List.map (newIndex a.usedEdges))
    outgoing := (kept a.usedNodes a.outgoing).map (List.map (newIndex a.usedEdges))
    output := (newIndex a.usedNodes a.output.toNat : Int)
    plan := a.plan.map (newIndex a.usedNodes)
    stepIndex := 0 }

theorem renamed_of_used {used : List Bool} {i : Nat} (h : used[i]? = some true) :
    renamed (denseMapping 0 used) i = .ok (newIndex used i) := by
  have hlt : i < used.length := (List.getElem?_eq_some_iff.1 h).1
  have hposition : position? (denseMapping 0 used).length (i : Int) = some i := by
    unfold position?
    rw [length_denseMapping, if_pos (by omega), if_pos (by omega)]
    rfl
  simp [renamed, hposition, denseMapping_getElem?, h]

theorem renamedEdge_of_used {used : List Bool} {j : Nat} (h : used[j]? = some true) :
    renamedEdge (denseMapping 0 used) j = .ok (newIndex used j) := by
  simp [renamedEdge, denseMapping_getElem?, h]

theorem rename_edges {a : Analysis} (hl : Linked a) :
    (kept a.usedEdges a.edges).mapM (renameEdge (denseMapping 0 a.usedNodes) (denseMapping 0 a.usedEdges)) =
      .ok ((kept a.usedEdges a.edges).map (renumberEdge a.usedNodes a.usedEdges)) := by
  refine mapM_of_forall fun e he => ?_
  obtain ⟨k, hk⟩ := List.mem_iff_getElem?.1 he
  obtain ⟨j, hj, hx, -⟩ := exists_of_kept hk
  have hid : e.id = j := hl.edgeIds j e hx
  simp only [renameEdge, renumberEdge, hid, renamedEdge_of_used hj, denseMapping_join]
  rfl

section

variable {a : Analysis} (hl : Linked a) (hp : Planned a)
include hl hp

/-- The lists of edges around planned nodes list kept edges only. -/
theorem used_of_mem_kept {lists : List (List Nat)} (hlists : lists = a.incoming ∨ lists = a.outgoing)
    {js : List Nat} (hjs : js ∈ kept a.usedNodes lists) {j : Nat} (hj : j ∈ js) :
    a.usedEdges[j]? = some true := by
  obtain ⟨k, hk⟩ := List.mem_iff_getElem?.1 hjs
  obtain ⟨i, hi, hx, -⟩ := exists_of_kept hk
  have hplan : i ∈ a.plan := (usedNodes_getElem? hp).1 hi
  have hlt := hp.lt i hplan
  rcases hlists with rfl | rfl
  · rw [hl.incoming_getElem? hlt] at hx
    cases hx
    obtain ⟨e, he, rfl⟩ := List.mem_map.1 hj
    obtain ⟨he, ht⟩ := mem_edgesInto.1 he
    exact (usedEdges_getElem? hl hp he).2 ⟨i, hplan, .inl ht⟩
  · rw [hl.outgoing_getElem? hlt] at hx
    cases hx
    obtain ⟨e, he, rfl⟩ := List.mem_map.1 hj
    obtain ⟨he, hs⟩ := mem_edgesFrom.1 he
    exact (usedEdges_getElem? hl hp he).2 ⟨i, hplan, .inr hs⟩

theorem rename_lists {lists : List (List Nat)} (hlists : lists = a.incoming ∨ lists = a.outgoing) :
    ((kept a.usedNodes lists).mapM fun js => js.mapM (renamedEdge (denseMapping 0 a.usedEdges))) =
      .ok ((kept a.usedNodes lists).map (List.map (newIndex a.usedEdges))) :=
  mapM_of_forall fun _ hjs => mapM_of_forall fun _ hj =>
    renamedEdge_of_used (used_of_mem_kept hl hp hlists hjs hj)

theorem rename_nodes : (kept a.usedNodes a.nodes).mapM (renameNode (denseMapping 0 a.usedNodes)) =
    .ok ((kept a.usedNodes a.nodes).map (renumberNode a.usedNodes)) := by
  refine mapM_of_forall fun n hn => ?_
  obtain ⟨k, hk⟩ := List.mem_iff_getElem?.1 hn
  obtain ⟨i, hi, hx, -⟩ := exists_of_kept hk
  have hid : n.id = (i : Int) := hl.ids i n hx
  have hinput : ∀ x ∈ n.inputs, a.usedNodes[x.producer.toNat]? = some true ∧
      (x.producer.toNat : Int) = x.producer := by
    intro x hmem
    have hplan : i ∈ a.plan := (usedNodes_getElem? hp).1 hi
    have hproducer : x.producer.toNat ∈ Plan.producersAt a.nodes i := Plan.mem_producersAt.2 ⟨n, hx, x, hmem, rfl⟩
    refine ⟨(usedNodes_getElem? hp).2 (hp.ordered.idxOf_lt hplan hproducer).1, ?_⟩
    exact Int.toNat_of_nonneg (hl.resolved i n hx x hmem).1
  have hinputs : (n.inputs.mapM fun x => do
      let p ← renamed (denseMapping 0 a.usedNodes) x.producer
      return { x with producer := (p : Int) }) =
        Except.ok (n.inputs.map fun x =>
          { x with producer := (newIndex a.usedNodes x.producer.toNat : Int) }) := by
    refine mapM_of_forall fun x hmem => ?_
    obtain ⟨hu, hcast⟩ := hinput x hmem
    rw [← hcast, renamed_of_used hu]
    rfl
  unfold renameNode renumberNode
  rw [hid, renamed_of_used hi, hinputs]
  rfl

/-- **Pruning a well-formed analysis succeeds.** -/
theorem prune_eq : a.prune = (.ok (denseMapping 0 a.usedNodes), a.pruned) := by
  have hplan : (a.plan.any fun i => decide (a.nodes.length ≤ i)) = false := by
    simpa using hp.lt
  have hlinks : a.pruneLinks a.usedNodes (denseMapping 0 a.usedEdges) =
      (.ok (), { a with incoming := a.pruned.incoming, outgoing := a.pruned.outgoing }) := by
    simp only [pruneLinks, rename_lists hl hp (.inl rfl), rename_lists hl hp (.inr rfl)]
    rfl
  have hitems : Analysis.pruneItems { a with incoming := a.pruned.incoming, outgoing := a.pruned.outgoing }
      a.usedNodes a.usedEdges (denseMapping 0 a.usedNodes) (denseMapping 0 a.usedEdges) =
      (.ok (), { a.pruned with output := a.output, plan := a.plan, stepIndex := a.stepIndex }) := by
    simp only [pruneItems, rename_nodes hl hp, rename_edges hl]
    rfl
  have hnodes : (a.plan.mapM fun (i : Nat) => renamed (denseMapping 0 a.usedNodes) i) =
      .ok (a.plan.map (newIndex a.usedNodes)) :=
    mapM_of_forall fun i hi => renamed_of_used ((usedNodes_getElem? hp).2 hi)
  have houtput : renamed (denseMapping 0 a.usedNodes) a.output = .ok (newIndex a.usedNodes a.output.toNat) := by
    have hcast : (a.output.toNat : Int) = a.output := Int.toNat_of_nonneg hl.output_lt.1
    rw [← hcast]
    exact renamed_of_used ((usedNodes_getElem? hp).2 hp.output_mem)
  have hrest : Analysis.prunePlan { a.pruned with output := a.output, plan := a.plan, stepIndex := a.stepIndex }
      (denseMapping 0 a.usedNodes) = (.ok (), a.pruned) := by
    simp only [prunePlan, houtput, hnodes]
    rfl
  unfold prune
  rw [if_neg (by simp [hplan])]
  simp only [hlinks, hitems, hrest]

/-! ### What pruning leaves is well formed -/

omit hl in
theorem pruned_node {k : Nat} {n : Node} (hn : a.pruned.nodes[k]? = some n) : ∃ (i : Nat) (m : Node),
    i ∈ a.plan ∧ a.nodes[i]? = some m ∧ newIndex a.usedNodes i = k ∧ renumberNode a.usedNodes m = n := by
  obtain ⟨m, hm, rfl⟩ := Option.map_eq_some_iff.1 ((List.getElem?_map ..).symm.trans hn)
  obtain ⟨i, hi, hx, hk⟩ := exists_of_kept hm
  exact ⟨i, m, (usedNodes_getElem? hp).1 hi, hx, hk, rfl⟩

omit hl in
theorem pruned_getElem? {i : Nat} (hi : i ∈ a.plan) : a.pruned.nodes[newIndex a.usedNodes i]? =
    a.nodes[i]?.map (renumberNode a.usedNodes) := by
  rw [← kept_getElem? (length_usedNodes a) ((usedNodes_getElem? hp).2 hi)]
  exact List.getElem?_map ..

omit hl in
theorem pruned_lt {i : Nat} (hi : i ∈ a.plan) : newIndex a.usedNodes i < a.pruned.nodes.length := by
  have hn := pruned_getElem? hp hi
  rw [List.getElem?_eq_getElem (hp.lt i hi)] at hn
  exact (List.getElem?_eq_some_iff.1 hn).1

omit hl hp in
theorem bind_keptIndex? {used : List Bool} {i : Nat} (h : used[i]? = some true) {x : Option Nat} :
    x.bind (keptIndex? used) = some (newIndex used i) ↔ x = some i := by
  cases x with
  | none => simp
  | some k =>
    simp only [Option.bind_some, keptIndex?_eq_some_iff, Option.some.injEq]
    constructor
    · rintro ⟨hk, heq⟩
      exact newIndex_inj hk h heq
    · rintro rfl
      exact ⟨h, rfl⟩

theorem pruned_into {i : Nat} (hi : i ∈ a.plan) : a.pruned.edgesInto (newIndex a.usedNodes i) =
    (a.edgesInto i).map (renumberEdge a.usedNodes a.usedEdges) := by
  have hu := (usedNodes_getElem? hp).2 hi
  have htest : ((fun e : Edge => decide (e.target = some (newIndex a.usedNodes i))) ∘
      renumberEdge a.usedNodes a.usedEdges) = fun e => decide (e.target = some i) := by
    funext e
    exact decide_eq_decide.2 (bind_keptIndex? hu)
  unfold edgesInto pruned
  rw [List.filter_map, htest, filter_kept (length_usedEdges a)]
  intro j e he ht
  rw [← hl.edgeIds j e he]
  exact (usedEdges_getElem? hl hp (List.mem_of_getElem? he)).2 ⟨i, hi, .inl (of_decide_eq_true ht)⟩

theorem pruned_from {i : Nat} (hi : i ∈ a.plan) : a.pruned.edgesFrom (newIndex a.usedNodes i) =
    (a.edgesFrom i).map (renumberEdge a.usedNodes a.usedEdges) := by
  have hu := (usedNodes_getElem? hp).2 hi
  have htest : ((fun e : Edge => decide (e.source = some (newIndex a.usedNodes i))) ∘
      renumberEdge a.usedNodes a.usedEdges) = fun e => decide (e.source = some i) := by
    funext e
    exact decide_eq_decide.2 (bind_keptIndex? hu)
  unfold edgesFrom pruned
  rw [List.filter_map, htest, filter_kept (length_usedEdges a)]
  intro j e he hs
  rw [← hl.edgeIds j e he]
  exact (usedEdges_getElem? hl hp (List.mem_of_getElem? he)).2 ⟨i, hi, .inr (of_decide_eq_true hs)⟩

omit hl in
theorem pruned_producersAt {i : Nat} (hi : i ∈ a.plan) :
    Plan.producersAt a.pruned.nodes (newIndex a.usedNodes i) =
      (Plan.producersAt a.nodes i).map (newIndex a.usedNodes) := by
  unfold Plan.producersAt
  rw [pruned_getElem? hp hi]
  cases a.nodes[i]? with
  | none => rfl
  | some n => simp [renumberNode, Node.producers, List.map_map, Function.comp_def]

end

/-- Lists for the planned nodes are the lists for what is left of them. -/
theorem map_kept_range {a : Analysis} (hp : Planned a) {f g : Nat → List Nat}
    (h : ∀ i ∈ a.plan, g (newIndex a.usedNodes i) = (f i).map (newIndex a.usedEdges)) :
    (kept a.usedNodes ((List.range a.nodes.length).map f)).map (List.map (newIndex a.usedEdges)) =
      (List.range a.pruned.nodes.length).map g := by
  have hlen : a.pruned.nodes.length = (kept a.usedNodes a.nodes).length := List.length_map ..
  rw [hlen, ← map_newIndex (length_usedNodes a), kept_map, List.map_map, List.map_map]
  refine List.map_congr_left fun i hi => ?_
  obtain ⟨k, hk⟩ := List.mem_iff_getElem?.1 hi
  obtain ⟨j, hj, hx, -⟩ := exists_of_kept hk
  obtain ⟨hlt, hx⟩ := List.getElem?_eq_some_iff.1 hx
  rw [List.getElem_range] at hx
  exact (h i ((usedNodes_getElem? hp).1 (hx ▸ hj))).symm

theorem pruned_incoming {a : Analysis} (hl : Linked a) (hp : Planned a) :
    a.pruned.incoming = incomingOf a.pruned.nodes.length a.pruned.edges := by
  have hkept : a.pruned.incoming = (kept a.usedNodes a.incoming).map (List.map (newIndex a.usedEdges)) := rfl
  rw [hkept, hl.incoming]
  refine map_kept_range hp fun i hi => ?_
  have hinto := congrArg (List.map Edge.id) (pruned_into hl hp hi)
  rw [List.map_map] at hinto
  rw [List.map_map]
  exact hinto

theorem pruned_outgoing {a : Analysis} (hl : Linked a) (hp : Planned a) :
    a.pruned.outgoing = outgoingOf a.pruned.nodes.length a.pruned.edges := by
  have hkept : a.pruned.outgoing = (kept a.usedNodes a.outgoing).map (List.map (newIndex a.usedEdges)) := rfl
  rw [hkept, hl.outgoing]
  refine map_kept_range hp fun i hi => ?_
  have hfrom := congrArg (List.map Edge.id) (pruned_from hl hp hi)
  rw [List.map_map] at hfrom
  rw [List.map_map]
  exact hfrom

/-- An edge that is left was kept, and so were the nodes at its ends. -/
theorem mem_pruned_edges {a : Analysis} {d : Edge} (hd : d ∈ a.pruned.edges) :
    ∃ e ∈ a.edges, renumberEdge a.usedNodes a.usedEdges e = d := by
  obtain ⟨e, he, rfl⟩ := List.mem_map.1 hd
  obtain ⟨k, hk⟩ := List.mem_iff_getElem?.1 he
  obtain ⟨j, -, hj, -⟩ := exists_of_kept hk
  exact ⟨e, List.mem_of_getElem? hj, rfl⟩

theorem keptIndex?_lt {a : Analysis} (hp : Planned a) {x : Option Nat} {k : Nat}
    (h : x.bind (keptIndex? a.usedNodes) = some k) : k < a.pruned.nodes.length := by
  obtain ⟨i, -, hi⟩ := Option.bind_eq_some_iff.1 h
  obtain ⟨hu, rfl⟩ := keptIndex?_eq_some_iff.1 hi
  exact pruned_lt hp ((usedNodes_getElem? hp).1 hu)

theorem pruned_linked {a : Analysis} (hl : Linked a) (hp : Planned a) : Linked a.pruned := by
  refine { ids := ?_, resolved := ?_, edgeIds := ?_, incoming := pruned_incoming hl hp,
           outgoing := pruned_outgoing hl hp, inputs := ?_, source_lt := ?_, target_lt := ?_,
           terminal := ?_, output_lt := ?_ }
  · intro k n hn
    obtain ⟨i, m, -, hm, rfl, rfl⟩ := pruned_node hp hn
    rw [renumberNode, hl.ids i m hm]
    rfl
  · intro k n hn x hx
    obtain ⟨i, m, hi, hm, rfl, rfl⟩ := pruned_node hp hn
    obtain ⟨y, hy, rfl⟩ := List.mem_map.1 hx
    have hproducer := (hp.ordered.idxOf_lt hi (Plan.mem_producersAt.2 ⟨m, hm, y, hy, rfl⟩)).1
    have := pruned_lt hp hproducer
    simp only
    omega
  · intro k d hd
    obtain ⟨e, he, rfl⟩ := Option.map_eq_some_iff.1 ((List.getElem?_map ..).symm.trans hd)
    obtain ⟨j, -, hj, rfl⟩ := exists_of_kept he
    rw [renumberEdge, hl.edgeIds j e hj]
  · intro k n hn
    obtain ⟨i, m, hi, hm, rfl, rfl⟩ := pruned_node hp hn
    have hinto := pruned_into hl hp hi
    rw [edgesInto] at hinto
    rw [hinto, List.map_map, renumberNode, List.map_map]
    have horigin := congrArg (List.map fun o : Option Nat × Int => (o.1.bind (keptIndex? a.usedNodes), o.2))
      (hl.inputs i m hm)
    rw [List.map_map, List.map_map] at horigin
    refine horigin.trans (List.map_congr_left fun x hx => ?_)
    have hproducer := (hp.ordered.idxOf_lt hi (Plan.mem_producersAt.2 ⟨m, hm, x, hx, rfl⟩)).1
    have hkept := keptIndex?_of_used ((usedNodes_getElem? hp).2 hproducer)
    simp [Input.origin, hkept]
  · intro d hd k hk
    obtain ⟨e, -, rfl⟩ := mem_pruned_edges hd
    exact keptIndex?_lt hp hk
  · intro d hd k hk
    obtain ⟨e, -, rfl⟩ := mem_pruned_edges hd
    exact keptIndex?_lt hp hk
  · obtain ⟨e, he, ho, ht⟩ := hl.terminal
    simp only [Edge.origin, Prod.mk.injEq] at ho
    have hu := (usedNodes_getElem? hp).2 hp.output_mem
    have hue := (usedEdges_getElem? hl hp he).2 ⟨_, hp.output_mem, .inr ho.1⟩
    have hk := kept_getElem? (length_usedEdges a) hue
    rw [hl.getElem?_id he] at hk
    refine ⟨_, List.mem_map_of_mem (List.mem_of_getElem? hk), ?_, ?_⟩
    · simp only [Edge.origin, renumberEdge, ho, Prod.mk.injEq, and_true]
      exact (bind_keptIndex? hu).2 rfl
    · simp [renumberEdge, ht]
  · have := pruned_lt hp hp.output_mem
    change (0 : Int) ≤ (newIndex a.usedNodes a.output.toNat : Int) ∧
      (newIndex a.usedNodes a.output.toNat : Int) < a.pruned.nodes.length
    omega

/-- **Pruning leaves a well-formed analysis.** -/
theorem pruned_wellFormed {a : Analysis} (hw : WellFormed a) : WellFormed a.pruned := by
  have hp := hw.toPlanned
  have hinj : ∀ i ∈ a.plan, ∀ j ∈ a.plan ++ [], newIndex a.usedNodes i = newIndex a.usedNodes j → i = j := by
    intro i hi j hj
    rw [List.append_nil] at hj
    exact newIndex_inj ((usedNodes_getElem? hp).2 hi) ((usedNodes_getElem? hp).2 hj)
  refine { pruned_linked hw.toLinked hp with
    ordered := hp.ordered.map (fun i hi => pruned_producersAt hp hi) hinj
    lt := ?_
    output_mem := List.mem_map_of_mem hp.output_mem
    stepIndex_lt := ?_ }
  · intro k hk
    obtain ⟨i, hi, rfl⟩ := List.mem_map.1 hk
    exact pruned_lt hp hi
  · exact List.length_pos_of_mem (List.mem_map_of_mem hp.output_mem)

end Analysis

end EdgeFacts
