/-
# Plans are canonical

A node feeds another if it produces one of its inputs, and outputs need themselves
and what feeds a needed node. There is a plan for some outputs exactly if the
outputs and all inputs of needed nodes exist and no needed node lies on a cycle
(`Plan.Plannable`). The plan lists the needed nodes, each once and after what feeds it
(`Plan.IsOrder`), and of all such lists it is the first in lexicographic order. So it
does not change with the order or the repetition of outputs and inputs
(`Plan.SameNeeds`).

Key definitions: `Plan.Feeds`, `Plan.Needed`, `Plan.Plannable`, `Plan.IsOrder`.
Key theorems: `Plan.arrange_least`, `Plan.Plannable.exists_ofNodes`, `Plan.ofNodes_canonical`.
-/
import Mathlib.Data.Finset.Card
import Mathlib.Logic.Relation
import EdgeFacts.Proofs.Plan

namespace EdgeFacts.Plan

/-- Whether a node has an input that is produced by a given node. -/
def Consumes (nodes : List Node) (i : Nat) (p : Int) : Prop :=
  ∃ n, nodes[i]? = some n ∧ p ∈ n.inputs.map Input.producer

/-- Whether a node produces an input of another node. -/
def Feeds (nodes : List Node) (p i : Nat) : Prop := Consumes nodes i p

/-- The nodes that can be reached backwards from some outputs. -/
inductive Needed (nodes : List Node) (outputs : List Int) : Nat → Prop
  | output {i : Nat} : (i : Int) ∈ outputs → Needed nodes outputs i
  | producer {i p : Nat} : Needed nodes outputs i → Feeds nodes p i → Needed nodes outputs p

/-- What there has to be for a plan: the outputs, what needed nodes consume, and
no cycle through a needed node. -/
structure Plannable (nodes : List Node) (outputs : List Int) : Prop where
  output : ∀ o ∈ outputs, 0 ≤ o ∧ o < nodes.length
  input : ∀ i, Needed nodes outputs i → ∀ p, Consumes nodes i p → 0 ≤ p ∧ p < nodes.length
  acyclic : ∀ i, Needed nodes outputs i → ¬ Relation.TransGen (Feeds nodes) i i

/-- Whether a list has the needed nodes and no others, each once and after all
that feed it. -/
structure IsOrder (nodes : List Node) (outputs : List Int) (order : List Nat) : Prop where
  nodup : order.Nodup
  mem_iff : ∀ i, i ∈ order ↔ Needed nodes outputs i
  before : ∀ left i right, order = left ++ i :: right → ∀ p, Feeds nodes p i → p ∈ left

/-- Whether two graphs with outputs differ, as far as plans go, at most in the order
and the repetition of the outputs and of the inputs of each node. -/
structure SameNeeds (nodes : List Node) (outputs : List Int) (nodes' : List Node)
    (outputs' : List Int) : Prop where
  length_eq : nodes'.length = nodes.length
  consumes_iff : ∀ i p, Consumes nodes' i p ↔ Consumes nodes i p
  output_iff : ∀ o, o ∈ outputs' ↔ o ∈ outputs

/-! ### Feeding -/

variable {nodes : List Node} {outputs : List Int}

theorem resolved_iff_consumes {i : Nat} :
    Resolved nodes i ↔ ∀ p, Consumes nodes i p → 0 ≤ p ∧ p < nodes.length := by
  constructor
  · rintro h p ⟨n, hn, hp⟩
    obtain ⟨input, hin, rfl⟩ := List.mem_map.1 hp
    exact h n hn input hin
  · exact fun h n hn input hin => h _ ⟨n, hn, List.mem_map_of_mem hin⟩

theorem Feeds.mem_producersAt {p i : Nat} (h : Feeds nodes p i) : p ∈ producersAt nodes i := by
  obtain ⟨n, hn, hp⟩ := h
  obtain ⟨input, hin, heq⟩ := List.mem_map.1 hp
  exact Plan.mem_producersAt.2 ⟨n, hn, input, hin, by omega⟩

/-- If all inputs of a node exist, its producers are the nodes that feed it. -/
theorem Resolved.mem_producersAt_iff {p i : Nat} (h : Resolved nodes i) :
    p ∈ producersAt nodes i ↔ Feeds nodes p i := by
  refine ⟨fun hp => ?_, Feeds.mem_producersAt⟩
  obtain ⟨n, hn, input, hin, rfl⟩ := Plan.mem_producersAt.1 hp
  have hpos := (h n hn input hin).1
  exact ⟨n, hn, List.mem_map.2 ⟨input, hin, by omega⟩⟩

theorem Plannable.resolved (h : Plannable nodes outputs) {i : Nat} (hi : Needed nodes outputs i) :
    Resolved nodes i :=
  resolved_iff_consumes.2 (h.input i hi)

theorem Met.mem_iff_needed {seen : List Nat} (h : Met nodes outputs seen)
    (hout : ∀ o ∈ outputs, 0 ≤ o ∧ o < nodes.length) (i : Nat) :
    i ∈ seen ↔ Needed nodes outputs i := by
  constructor
  · refine fun hi => (h.least (fun j => j ∈ seen ∧ Needed nodes outputs j) ?_ ?_ i hi).2
    · intro o ho
      have hnat : ((o.toNat : Nat) : Int) = o := by have := hout o ho; omega
      exact ⟨h.output o ho, .output (hnat.symm ▸ ho)⟩
    · rintro j ⟨hj, hneed⟩ p hp
      exact ⟨h.closed j hj p hp, hneed.producer ((h.resolved j hj).2.mem_producersAt_iff.1 hp)⟩
  · intro hi
    induction hi with
    | output ho => exact h.output _ ho
    | producer _ hp ih => exact h.closed _ ih _ hp.mem_producersAt

/-- Along a list in which each node comes after what feeds it, chains of nodes that
feed each other go backwards. -/
theorem Ordered.idxOf_lt_of_transGen {plan : List Nat} (h : Ordered (producersAt nodes) [] plan)
    {q i : Nat} (hq : Relation.TransGen (Feeds nodes) q i) (hi : i ∈ plan) :
    q ∈ plan ∧ plan.idxOf q < plan.idxOf i := by
  induction hq using Relation.TransGen.head_induction_on with
  | single hp => exact h.idxOf_lt hi hp.mem_producersAt
  | head hp _ ih =>
    obtain ⟨hmem, hlt⟩ := h.idxOf_lt ih.1 hp.mem_producersAt
    exact ⟨hmem, hlt.trans ih.2⟩

open scoped Classical in
/-- The level of a node: how many nodes it depends on. -/
noncomputable def level (nodes : List Node) (i : Nat) : Nat :=
  ((Finset.range nodes.length).filter fun q => Relation.TransGen (Feeds nodes) q i).card

/-- A node that is fed depends on more nodes than what feeds it, unless that lies on a cycle. -/
theorem Feeds.level_lt {p i : Nat} (h : Feeds nodes p i) (hp : p < nodes.length)
    (hcycle : ¬ Relation.TransGen (Feeds nodes) p p) : level nodes p < level nodes i := by
  classical
  refine Finset.card_lt_card (Finset.ssubset_iff_of_subset ?_ |>.2 ⟨p, ?_, ?_⟩)
  · exact Finset.monotone_filter_right _ fun q _ hq => hq.tail h
  · simpa using ⟨hp, .single h⟩
  · simpa using fun _ => hcycle

/-! ### The least order -/

variable {producers : Nat → List Nat}

theorem arrange_prefix : ∀ (fuel : Nat) (remaining done : List Nat),
    ∃ rest, (arrange producers fuel remaining done).1 = done ++ rest
  | 0, _, done => ⟨[], by simp [arrange]⟩
  | fuel + 1, remaining, done => by
    simp only [arrange]
    split
    · exact ⟨[], by simp⟩
    · rename_i i _
      obtain ⟨rest, hrest⟩ := arrange_prefix fuel (remaining.erase i) (done ++ [i])
      exact ⟨i :: rest, by simp [hrest]⟩

theorem le_of_find?_sorted {remaining : List Nat} {test : Nat → Bool} {i j : Nat}
    (hsorted : remaining.Pairwise (· < ·)) (hi : remaining.find? test = some i) (hj : j ∈ remaining)
    (htest : test j = true) : i ≤ j := by
  obtain ⟨-, left, right, rfl, hleft⟩ := List.find?_eq_some_iff_append.1 hi
  rcases List.mem_append.1 hj with hj | hj
  · have := hleft j hj
    simp [htest] at this
  · rcases List.mem_cons.1 hj with rfl | hj
    · exact Nat.le_refl _
    · exact Nat.le_of_lt (List.rel_of_pairwise_cons (List.pairwise_append.1 hsorted).2.1 hj)

/-- **Nodes are arranged in the least order.** Of the nodes that remain, the least
that is ready comes next, so no order of them begins with less. -/
theorem arrange_least : ∀ {fuel : Nat} {remaining done plan order : List Nat},
    remaining.Pairwise (· < ·) → arrange producers fuel remaining done = (done ++ plan, []) →
    Ordered producers done order → order.Perm remaining →
    order = plan ∨ List.Lex (· < ·) plan order
  | fuel, remaining, done, plan, [], _, h, _, hperm => by
    have hnil : remaining = [] := hperm.symm.eq_nil
    have hdone : arrange producers fuel remaining done = (done, []) := by
      cases fuel <;> simp [arrange, hnil]
    have hplan : done = done ++ plan := congrArg Prod.fst (hdone.symm.trans h)
    exact .inl (List.self_eq_append_right.1 hplan).symm
  | 0, remaining, done, plan, j :: order, _, h, _, hperm => by
    have hj : j ∈ remaining := hperm.subset (.head _)
    have hnil : remaining = [] := congrArg Prod.snd h
    rw [hnil] at hj
    cases hj
  | fuel + 1, remaining, done, plan, j :: order, hsorted, h, ho, hperm => by
    have hj : j ∈ remaining := hperm.subset (.head _)
    have hready : (producers j).all done.contains = true := by
      simpa using fun p hp => ho.2.1 hp
    simp only [arrange] at h
    split at h
    · rename_i hnone
      exact absurd hready (List.find?_eq_none.1 hnone j hj)
    · rename_i i hi
      obtain ⟨rest, hrest⟩ : ∃ rest, (arrange producers fuel (remaining.erase i) (done ++ [i])).1 =
          done ++ [i] ++ rest := arrange_prefix _ _ _
      have hplan : plan = i :: rest := by
        rw [h, List.append_assoc] at hrest
        exact List.append_cancel_left hrest
      subst hplan
      rcases Nat.lt_or_eq_of_le (le_of_find?_sorted hsorted hi hj hready) with hlt | rfl
      · exact .inr (.rel hlt)
      · have ho' : Ordered producers (done ++ [i]) order :=
          ho.2.2.mono fun k => by simp [or_comm]
        have hperm' : order.Perm (remaining.erase i) := (List.cons_perm_iff_perm_erase.1 hperm).2
        have h' : arrange producers fuel (remaining.erase i) (done ++ [i]) = (done ++ [i] ++ rest, []) := by
          rw [h, List.append_assoc, List.singleton_append]
        exact (arrange_least (hsorted.erase i) h' ho' hperm').imp (congrArg _) .cons

/-! ### Plans -/

/-- An order of the needed nodes is one in the sense in which plans are arranged. -/
theorem IsOrder.ordered {order : List Nat} (h : IsOrder nodes outputs order)
    (hplan : Plannable nodes outputs) : Ordered (producersAt nodes) [] order := by
  suffices ∀ left right, order = left ++ right → Ordered (producersAt nodes) left.reverse right by
    simpa using this [] order rfl
  intro left right
  induction right generalizing left with
  | nil => exact fun _ => trivial
  | cons i right ih =>
    intro heq
    have hneed : Needed nodes outputs i := (h.mem_iff i).1 (heq ▸ by simp)
    have hfresh : i ∉ left := by
      have := h.nodup
      rw [heq, List.nodup_append] at this
      exact fun hi => this.2.2 i hi i (.head _) rfl
    refine ⟨by simpa using hfresh, fun p hp => ?_, ?_⟩
    · simpa using h.before left i right heq p ((hplan.resolved hneed).mem_producersAt_iff.1 hp)
    · simpa using ih (left ++ [i]) (by simpa using heq)

theorem plannable_of_ofNodes {plan : List Nat} (h : ofNodes nodes outputs = .ok plan) :
    Plannable nodes outputs := by
  obtain ⟨hout, hmet, hord⟩ := ofNodes_met h
  have hmem := hmet.mem_iff_needed hout
  refine ⟨hout, fun i hi => ?_, fun i hi hcycle => ?_⟩
  · exact resolved_iff_consumes.1 (hmet.resolved i ((hmem i).2 hi)).2
  · exact Nat.lt_irrefl _ (hord.idxOf_lt_of_transGen hcycle ((hmem i).2 hi)).2

theorem Plannable.exists_ofNodes (h : Plannable nodes outputs) :
    ∃ plan, ofNodes nodes outputs = .ok plan := by
  have hstart : ∀ o ∈ outputs, Needed nodes outputs o.toNat := fun o ho =>
    .output (by rwa [Int.toNat_of_nonneg (h.output o ho).1])
  have hclosed : ∀ i, Needed nodes outputs i → ∀ p ∈ producersAt nodes i, Needed nodes outputs p :=
    fun i hi p hp => hi.producer ((h.resolved hi).mem_producersAt_iff.1 hp)
  obtain ⟨seen, hmet⟩ := exists_met h.output hstart hclosed fun i hi => h.resolved hi
  have hmem := hmet.mem_iff_needed h.output
  have hlevel : ∀ i ∈ seen, ∀ p ∈ producersAt nodes i, level nodes p < level nodes i := by
    intro i hi p hp
    have hfeeds : Feeds nodes p i := (hmet.resolved i hi).2.mem_producersAt_iff.1 hp
    have hseen : p ∈ seen := hmet.closed i hi p hp
    exact hfeeds.level_lt (hmet.resolved p hseen).1 (h.acyclic p ((hmem p).1 hseen))
  exact hmet.exists_ofNodes h.output hlevel

theorem isOrder_of_ofNodes {plan : List Nat} (h : ofNodes nodes outputs = .ok plan) :
    IsOrder nodes outputs plan := by
  obtain ⟨hout, hmet, hord⟩ := ofNodes_met h
  refine ⟨hord.nodup.1, hmet.mem_iff_needed hout, fun left i right heq p hp => ?_⟩
  have hbefore := (heq ▸ hord : Ordered _ [] (left ++ i :: right)).producers_before p hp.mem_producersAt
  simpa using hbefore

theorem ofNodes_least {plan order : List Nat} (h : ofNodes nodes outputs = .ok plan)
    (ho : IsOrder nodes outputs order) : order = plan ∨ List.Lex (· < ·) plan order := by
  have hplan := plannable_of_ofNodes h
  obtain ⟨hout, seen, hmet, harr⟩ := ofNodes_eq_ok_iff.1 h
  have hperm : order.Perm (inOrder nodes seen) := by
    refine (List.perm_ext_iff_of_nodup ho.nodup (nodup_inOrder nodes seen)).2 fun i => ?_
    rw [ho.mem_iff, hmet.mem_inOrder, hmet.mem_iff_needed hout]
  exact arrange_least (sorted_inOrder nodes seen) (by simpa using harr) (ho.ordered hplan) hperm

/-! ### Order and repetition -/

namespace SameNeeds

variable {nodes' : List Node} {outputs' : List Int} (h : SameNeeds nodes outputs nodes' outputs')
include h

theorem symm : SameNeeds nodes' outputs' nodes outputs :=
  ⟨h.length_eq.symm, fun i p => (h.consumes_iff i p).symm, fun o => (h.output_iff o).symm⟩

theorem needed {i : Nat} (hi : Needed nodes outputs i) : Needed nodes' outputs' i := by
  induction hi with
  | output ho => exact .output ((h.output_iff _).2 ho)
  | producer _ hp ih => exact ih.producer ((h.consumes_iff _ _).2 hp)

theorem plannable (hp : Plannable nodes outputs) : Plannable nodes' outputs' where
  output o ho := by
    rw [h.length_eq]
    exact hp.output o ((h.output_iff o).1 ho)
  input i hi p hc := by
    rw [h.length_eq]
    exact hp.input i (h.symm.needed hi) p ((h.consumes_iff i p).1 hc)
  acyclic i hi hcycle :=
    hp.acyclic i (h.symm.needed hi)
      (Relation.TransGen.mono (fun p j hpj => (h.consumes_iff j p).1 hpj) _ _ hcycle)

theorem isOrder {order : List Nat} (ho : IsOrder nodes outputs order) : IsOrder nodes' outputs' order where
  nodup := ho.nodup
  mem_iff i := (ho.mem_iff i).trans ⟨h.needed, h.symm.needed⟩
  before left i right heq p hp := ho.before left i right heq p ((h.consumes_iff i p).1 hp)

/-- The same needs have the same plan, since there is only one least order. -/
theorem ofNodes_eq {plan : List Nat} (hp : ofNodes nodes outputs = .ok plan) :
    ofNodes nodes' outputs' = .ok plan := by
  obtain ⟨plan', hp'⟩ := (h.plannable (plannable_of_ofNodes hp)).exists_ofNodes
  have hle := ofNodes_least hp (h.symm.isOrder (isOrder_of_ofNodes hp'))
  have hle' := ofNodes_least hp' (h.isOrder (isOrder_of_ofNodes hp))
  rcases hle with heq | hlt
  · rw [hp', heq]
  · rcases hle' with heq | hlt'
    · rw [hp', heq]
    · exact absurd hlt' (List.lex_asymm (fun hxy => Nat.lt_asymm hxy) hlt)

end SameNeeds

/-- **Plans are correct and canonical.** There is a plan exactly if the outputs and all
that needed nodes consume exist and no needed node lies on a cycle. It has the needed
nodes, each once and after all that feed it, and is the first in lexicographic order of
all such lists. The order and the repetition of outputs and inputs make no difference. -/
theorem ofNodes_canonical (nodes : List Node) (outputs : List Int) :
    ((∃ plan, ofNodes nodes outputs = .ok plan) ↔ Plannable nodes outputs) ∧
    (∀ plan, ofNodes nodes outputs = .ok plan → IsOrder nodes outputs plan ∧
      ∀ order, IsOrder nodes outputs order → order = plan ∨ List.Lex (· < ·) plan order) ∧
    ∀ nodes' outputs', SameNeeds nodes outputs nodes' outputs' →
      ∀ plan, ofNodes nodes' outputs' = .ok plan ↔ ofNodes nodes outputs = .ok plan :=
  ⟨⟨fun ⟨_, h⟩ => plannable_of_ofNodes h, Plannable.exists_ofNodes⟩,
    fun _ h => ⟨isOrder_of_ofNodes h, fun _ ho => ofNodes_least h ho⟩,
    fun _ _ h _ => ⟨h.symm.ofNodes_eq, h.ofNodes_eq⟩⟩

/-- A sum of a node and of one that comes after it, whose terms may be told in several
ways, beside a node that feeds itself. -/
def crossed (terms : List Int) : List Node := [
  ⟨0, "y", "Relu", .relu, [⟨2, none⟩]⟩,
  ⟨1, "a", "Placeholder", .placeholder .unknown, []⟩,
  ⟨2, "b", "Placeholder", .placeholder .unknown, []⟩,
  ⟨3, "z", "Add", .add, terms.map fun p => ⟨p, none⟩⟩,
  ⟨4, "w", "Relu", .relu, [⟨4, none⟩]⟩]

/-- The sum is planned as it is required to be, its terms told twice or not; the other
order, in which node 2 comes first, is greater; and the last node has no plan. -/
theorem crossed_canonical : ofNodes (crossed [0, 1]) [3] = .ok [1, 2, 0, 3] ∧
    ofNodes (crossed [1, 0, 1]) [3, 3] = .ok [1, 2, 0, 3] ∧
    (∀ order, IsOrder (crossed [0, 1]) [3] order →
      order = [1, 2, 0, 3] ∨ List.Lex (· < ·) [1, 2, 0, 3] order) ∧
    ¬ Plannable (crossed [0, 1]) [4] := by
  have hplan : ofNodes (crossed [0, 1]) [3] = .ok [1, 2, 0, 3] := rfl
  obtain ⟨-, hleast, hsame⟩ := ofNodes_canonical (crossed [0, 1]) [3]
  have htold : SameNeeds (crossed [0, 1]) [3] (crossed [1, 0, 1]) [3, 3] := by
    refine ⟨rfl, fun i p => ?_, by simp⟩
    match i with
    | 0 | 1 | 2 | 4 => rfl
    | 3 =>
      simp [Consumes, crossed]
      omega
    | i + 5 => simp [Consumes, crossed]
  refine ⟨hplan, (hsame _ _ htold _).2 hplan, (hleast _ hplan).2, fun h => ?_⟩
  obtain ⟨plan, hp⟩ := (ofNodes_canonical (crossed [0, 1]) [4]).1.2 h
  have hcycle : (ofNodes (crossed [0, 1]) [4]).toOption = none := by decide +kernel
  simp [hp, Except.toOption] at hcycle

end EdgeFacts.Plan
