/-
# Plans are complete and in order

The plan of an output lists the nodes that the output needs, each once and after
its producers. A node is needed if it is the output or a producer of a node that
is needed (`Plan.Required`). There is such a plan exactly if the needed nodes
exist and can be given levels that fall from each node to its producers.

Key definitions: `Plan.Required`, `Plan.Ordered`, `Plan.Layered`, `Plan.pending`,
`Plan.Met`.
Key theorems: `Plan.collect_spec`, `Plan.arrange_spec`, `Plan.ofNodes_eq_ok_iff`,
`Plan.ofNodes_spec`, `Plan.exists_ofNodes`.
-/
import Mathlib.Algebra.BigOperators.Group.Finset.Basic
import Mathlib.Algebra.Ring.Nat
import Mathlib.Data.List.MinMax
import EdgeFacts.Proofs.Ready

namespace EdgeFacts.Plan

/-- The nodes that an output needs. -/
inductive Required (nodes : List Node) (output : Nat) : Nat → Prop
  | output : Required nodes output output
  | producer {i p : Nat} : Required nodes output i → p ∈ producersAt nodes i → Required nodes output p

/-- Whether all inputs of a node are nodes of the graph. -/
def Resolved (nodes : List Node) (i : Nat) : Prop :=
  ∀ n, nodes[i]? = some n → ∀ input ∈ n.inputs, 0 ≤ input.producer ∧ input.producer < nodes.length

/-- Whether each node of a list comes once, after its producers and the nodes
done before. -/
def Ordered (producers : Nat → List Nat) : List Nat → List Nat → Prop
  | _, [] => True
  | done, i :: rest => i ∉ done ∧ producers i ⊆ done ∧ Ordered producers (i :: done) rest

/-- Whether the producers of some nodes are among them at lower levels, or done. -/
def Layered (producers : Nat → List Nat) (level : Nat → Nat) (done nodes : List Nat) : Prop :=
  ∀ i ∈ nodes, ∀ p ∈ producers i, p ∈ done ∨ p ∈ nodes ∧ level p < level i

/-! ### Orders -/

theorem Ordered.mono {producers : Nat → List Nat} : ∀ {plan done done' : List Nat},
    (∀ i, i ∈ done ↔ i ∈ done') → Ordered producers done plan → Ordered producers done' plan
  | [], _, _, _, _ => trivial
  | i :: rest, done, done', h, ho => by
    have hcons : ∀ j, j ∈ i :: done ↔ j ∈ i :: done' := by simp [h]
    exact ⟨fun hi => ho.1 ((h i).2 hi), fun p hp => (h p).1 (ho.2.1 hp), ho.2.2.mono hcons⟩

theorem Ordered.append {producers : Nat → List Nat} : ∀ {plan done rest : List Nat},
    Ordered producers done plan → Ordered producers (plan ++ done) rest →
      Ordered producers done (plan ++ rest)
  | [], _, _, _, hr => hr
  | i :: plan, done, rest, ho, hr => by
    refine ⟨ho.1, ho.2.1, ho.2.2.append (hr.mono fun j => ?_)⟩
    simp only [List.mem_append, List.mem_cons]
    tauto

/-- An order stays one if nodes lose producers. -/
theorem Ordered.of_subset {producers producers' : Nat → List Nat} : ∀ {plan done : List Nat},
    (∀ i ∈ plan, producers' i ⊆ producers i) → Ordered producers done plan →
    Ordered producers' done plan
  | [], _, _, _ => trivial
  | i :: _, _, h, ho => ⟨ho.1, fun _ hp => ho.2.1 (h i (.head _) hp),
    Ordered.of_subset (fun j hj => h j (.tail _ hj)) ho.2.2⟩

theorem Ordered.map {producers producers' : Nat → List Nat} {f : Nat → Nat} : ∀ {plan done : List Nat},
    Ordered producers done plan → (∀ i ∈ plan, producers' (f i) = (producers i).map f) →
    (∀ i ∈ plan, ∀ j ∈ plan ++ done, f i = f j → i = j) →
    Ordered producers' (done.map f) (plan.map f)
  | [], _, _, _, _ => trivial
  | i :: rest, done, ho, hp, hf => by
    refine ⟨fun hi => ?_, ?_, ?_⟩
    · obtain ⟨j, hj, hji⟩ := List.mem_map.1 hi
      have heq := hf i (.head _) j (List.mem_append_right _ hj) hji.symm
      exact ho.1 (heq ▸ hj)
    · rw [hp i (.head _)]
      exact List.map_subset f ho.2.1
    · have hrest : ∀ j ∈ rest, ∀ k ∈ rest ++ i :: done, f j = f k → j = k := by
        intro j hj k hk
        refine hf j (.tail _ hj) k ?_
        simp only [List.mem_append, List.mem_cons] at hk ⊢
        tauto
      exact Ordered.map ho.2.2 (fun j hj => hp j (.tail _ hj)) hrest

theorem Ordered.nodup {producers : Nat → List Nat} : ∀ {plan done : List Nat},
    Ordered producers done plan → plan.Nodup ∧ ∀ i ∈ plan, i ∉ done
  | [], _, _ => ⟨.nil, by simp⟩
  | i :: rest, done, h => by
    obtain ⟨hn, hd⟩ := h.2.2.nodup
    refine ⟨List.nodup_cons.2 ⟨fun hi => hd i hi (.head _), hn⟩, fun j hj => ?_⟩
    rcases List.mem_cons.1 hj with rfl | hj
    · exact h.1
    · exact fun hjd => hd j hj (.tail _ hjd)

theorem Ordered.producers_before {producers : Nat → List Nat} : ∀ {left right done : List Nat} {i : Nat},
    Ordered producers done (left ++ i :: right) → ∀ p ∈ producers i, p ∈ left ∨ p ∈ done
  | [], _, _, _, h, p, hp => .inr (h.2.1 hp)
  | j :: left, right, done, i, h, p, hp => by
    have tail := h.2.2.producers_before p hp
    simp only [List.mem_cons] at tail ⊢
    tauto

theorem Ordered.idxOf_lt {producers : Nat → List Nat} {plan : List Nat}
    (h : Ordered producers [] plan) {i p : Nat} (hi : i ∈ plan) (hp : p ∈ producers i) :
    p ∈ plan ∧ plan.idxOf p < plan.idxOf i := by
  obtain ⟨left, right, rfl, hleft⟩ := List.eq_append_cons_of_mem hi
  have hpl : p ∈ left := by simpa using h.producers_before p hp
  refine ⟨List.mem_append_left _ hpl, ?_⟩
  rw [List.idxOf_append_of_mem hpl, List.idxOf_append_of_notMem hleft, List.idxOf_cons_self]
  exact Nat.lt_of_lt_of_le (List.idxOf_lt_length_of_mem hpl) (Nat.le_add_right _ _)

/-- What passes from the producers of a node to the node holds of all nodes in order. -/
theorem Ordered.induction {producers : Nat → List Nat} {P : Nat → Prop} : ∀ {plan done : List Nat},
    Ordered producers done plan → (∀ i ∈ done, P i) → (∀ i ∈ plan, (∀ p ∈ producers i, P p) → P i) →
    ∀ i ∈ plan, P i
  | [], _, _, _, _, _, hi => nomatch hi
  | i :: rest, done, h, hdone, hP, j, hj => by
    have head : P i := hP i (.head _) fun p hp => hdone p (h.2.1 hp)
    rcases List.mem_cons.1 hj with rfl | hj
    · exact head
    · refine h.2.2.induction (fun k hk => ?_) (fun k hk => hP k (.tail _ hk)) j hj
      rcases List.mem_cons.1 hk with rfl | hk
      · exact head
      · exact hdone k hk

/-! ### Producers -/

theorem mem_producersAt {nodes : List Node} {i p : Nat} :
    p ∈ producersAt nodes i ↔ ∃ n, nodes[i]? = some n ∧ ∃ input ∈ n.inputs, input.producer.toNat = p := by
  unfold producersAt
  cases nodes[i]? <;> simp [Node.producers]

theorem producersAt_eq {nodes : List Node} {i : Nat} {n : Node} (hn : nodes[i]? = some n) :
    producersAt nodes i = n.producers := by
  rw [producersAt, hn]

theorem mem_producersAt_of_node {nodes : List Node} {i p : Nat} {n : Node} (hn : nodes[i]? = some n)
    (hp : p ∈ n.producers) : p ∈ producersAt nodes i :=
  producersAt_eq hn ▸ hp

theorem Resolved.lt {nodes : List Node} {i p : Nat} (h : Resolved nodes i)
    (hp : p ∈ producersAt nodes i) : p < nodes.length := by
  obtain ⟨n, hn, input, hi, rfl⟩ := mem_producersAt.1 hp
  have := h n hn input hi
  omega

theorem danglingProducer?_eq_none_iff {n : Node} {count : Nat} :
    n.danglingProducer? count = none ↔
      ∀ input ∈ n.inputs, 0 ≤ input.producer ∧ input.producer < (count : Int) := by
  simp [Node.danglingProducer?]

theorem resolved_iff {nodes : List Node} {i : Nat} {n : Node} (hn : nodes[i]? = some n) :
    Resolved nodes i ↔ n.danglingProducer? nodes.length = none := by
  rw [danglingProducer?_eq_none_iff]
  exact ⟨fun h => h n hn, fun h m hm => by cases hn.symm.trans hm; exact h⟩

/-! ### Collecting -/

/-- The number of inputs of the nodes that are not yet met. -/
def pending (nodes : List Node) (seen : List Nat) : Nat :=
  (((List.range nodes.length).filter fun i => !seen.contains i).map
    fun i => (producersAt nodes i).length).sum

theorem pending_nil (nodes : List Node) : pending nodes [] = inputCount nodes := by
  have h : ((List.range nodes.length).map fun i => (producersAt nodes i).length) =
      nodes.map fun n => n.inputs.length := by
    refine List.ext_getElem (by simp) fun i hi _ => ?_
    have hi' : i < nodes.length := by simpa using hi
    simp [producersAt, hi', Node.producers]
  simp [pending, inputCount, h]

theorem pending_cons {nodes : List Node} {seen : List Nat} {i : Nat} (hi : i < nodes.length)
    (hs : i ∉ seen) :
    pending nodes seen = (producersAt nodes i).length + pending nodes (i :: seen) := by
  have hmem : i ∈ (List.range nodes.length).filter fun j => !seen.contains j := by
    simp [hi, hs]
  have herase : ((List.range nodes.length).filter fun j => !seen.contains j).erase i =
      (List.range nodes.length).filter fun j => !(i :: seen).contains j := by
    rw [(List.nodup_range.filter _).erase_eq_filter, List.filter_filter]
    refine List.filter_congr fun j _ => ?_
    simp [bne, Bool.beq_eq_decide_eq]
  rw [pending, pending, ← herase]
  exact (List.sum_map_erase _ hmem).symm

/-- What holds while nodes are collected: those met are nodes with existing
producers, and these are met or on the stack. -/
structure Collecting (nodes : List Node) (stack seen : List Nat) : Prop where
  inRange : ∀ i ∈ stack, i < nodes.length
  resolved : ∀ i ∈ seen, i < nodes.length ∧ Resolved nodes i
  closed : ∀ i ∈ seen, ∀ p ∈ producersAt nodes i, p ∈ seen ∨ p ∈ stack

/-- The producers of a node that are put on the stack when it is met. -/
def unmet (nodes : List Node) (i : Nat) (seen : List Nat) : List Nat :=
  ((producersAt nodes i).filter fun p => !(i :: seen).contains p).reverse

theorem mem_unmet {nodes : List Node} {i p : Nat} {seen : List Nat} :
    p ∈ unmet nodes i seen ↔ p ∈ producersAt nodes i ∧ p ∉ i :: seen := by
  simp [unmet]

theorem Collecting.skip {nodes : List Node} {i : Nat} {stack seen : List Nat}
    (h : Collecting nodes (i :: stack) seen) (hi : i ∈ seen) : Collecting nodes stack seen where
  inRange j hj := h.inRange j (.tail _ hj)
  resolved := h.resolved
  closed j hj p hp := by
    rcases h.closed j hj p hp with hps | hps
    · exact .inl hps
    · rcases List.mem_cons.1 hps with rfl | hps
      · exact .inl hi
      · exact .inr hps

theorem Collecting.expand {nodes : List Node} {i : Nat} {stack seen : List Nat}
    (h : Collecting nodes (i :: stack) seen) (hi : Resolved nodes i) :
    Collecting nodes (unmet nodes i seen ++ stack) (i :: seen) where
  inRange j hj := by
    rcases List.mem_append.1 hj with hj | hj
    · exact hi.lt (mem_unmet.1 hj).1
    · exact h.inRange j (.tail _ hj)
  resolved j hj := by
    rcases List.mem_cons.1 hj with rfl | hj
    · exact ⟨h.inRange j (.head _), hi⟩
    · exact h.resolved j hj
  closed j hj p hp := by
    by_cases hps : p ∈ i :: seen
    · exact .inl hps
    refine .inr (List.mem_append.2 ?_)
    rcases List.mem_cons.1 hj with rfl | hj
    · exact .inl (mem_unmet.2 ⟨hp, hps⟩)
    · have := h.closed j hj p hp
      simp only [List.mem_cons] at this hps
      tauto

/-- The three things that a step of the collection can do with a node. -/
theorem collect_cons {nodes : List Node} {i : Nat} (fuel : Nat) (stack seen : List Nat)
    (hi : i < nodes.length) :
    (i ∈ seen ∧ collect nodes (fuel + 1) (i :: stack) seen = collect nodes fuel stack seen) ∨
    (i ∉ seen ∧ Resolved nodes i ∧ collect nodes (fuel + 1) (i :: stack) seen =
      collect nodes fuel (unmet nodes i seen ++ stack) (i :: seen)) ∨
    (i ∉ seen ∧ ¬ Resolved nodes i ∧ ∃ e, collect nodes (fuel + 1) (i :: stack) seen = .error e) := by
  have hn : nodes[i]? = some nodes[i] := List.getElem?_eq_getElem hi
  by_cases hs : i ∈ seen
  · exact .inl ⟨hs, by simp [collect, hs]⟩
  cases hd : nodes[i].danglingProducer? nodes.length with
  | none =>
    refine .inr (.inl ⟨hs, (resolved_iff hn).2 hd, ?_⟩)
    simp [collect, hs, hn, hd, unmet, producersAt]
  | some p =>
    refine .inr (.inr ⟨hs, fun hr => ?_, _, by simp [collect, hs, hn, hd]; rfl⟩)
    rw [(resolved_iff hn).1 hr] at hd
    cases hd

theorem length_unmet_le (nodes : List Node) (i : Nat) (seen : List Nat) :
    (unmet nodes i seen).length ≤ (producersAt nodes i).length := by
  simp [unmet, List.length_filter_le]

/-- With fuel enough, all that is met has its producers met. -/
theorem collect_spec {nodes : List Node} : ∀ {fuel : Nat} {stack seen result : List Nat},
    Collecting nodes stack seen → stack.length + pending nodes seen ≤ fuel →
    collect nodes fuel stack seen = .ok result →
    Collecting nodes [] result ∧ seen ⊆ result ∧ stack ⊆ result
  | 0, stack, seen, result, h, hf, hr => by
    have hnil : stack = [] := List.eq_nil_of_length_eq_zero (by omega)
    cases hr
    subst hnil
    exact ⟨h, fun _ => id, by simp⟩
  | fuel + 1, [], seen, result, h, hf, hr => by
    cases hr
    exact ⟨h, fun _ => id, by simp⟩
  | fuel + 1, i :: stack, seen, result, h, hf, hr => by
    have hi := h.inRange i (.head _)
    simp only [List.length_cons] at hf
    rcases collect_cons fuel stack seen hi with
      ⟨hs, he⟩ | ⟨hs, hres, he⟩ | ⟨hs, hres, e, he⟩
    · obtain ⟨hc, hsub, hst⟩ := collect_spec (h.skip hs) (by omega) (he ▸ hr)
      exact ⟨hc, hsub, List.cons_subset.2 ⟨hsub hs, hst⟩⟩
    · have hp := pending_cons hi hs
      have hu := length_unmet_le nodes i seen
      obtain ⟨hc, hsub, hst⟩ := collect_spec (h.expand hres)
        (by simp only [List.length_append]; omega) (he ▸ hr)
      exact ⟨hc, fun j hj => hsub (.tail _ hj),
        List.cons_subset.2 ⟨hsub (.head _), fun j hj => hst (List.mem_append_right _ hj)⟩⟩
    · rw [he] at hr
      cases hr

/-- What is met belongs to every set of nodes that is closed under producers. -/
theorem collect_subset {nodes : List Node} {P : Nat → Prop}
    (hP : ∀ i, P i → ∀ p ∈ producersAt nodes i, P p) : ∀ {fuel : Nat} {stack seen result : List Nat},
    Collecting nodes stack seen → (∀ i ∈ stack, P i) → (∀ i ∈ seen, P i) →
    collect nodes fuel stack seen = .ok result → ∀ i ∈ result, P i
  | 0, _, _, _, _, _, hs, hr => by cases hr; exact hs
  | _ + 1, [], _, _, _, _, hs, hr => by cases hr; exact hs
  | fuel + 1, i :: stack, seen, result, h, hst, hs, hr => by
    have hi := hst i (.head _)
    have hrest := fun j hj => hst j (.tail _ hj)
    rcases collect_cons fuel stack seen (h.inRange i (.head _)) with
      ⟨hmet, he⟩ | ⟨-, hres, he⟩ | ⟨-, -, e, he⟩
    · exact collect_subset hP (h.skip hmet) hrest hs (he ▸ hr)
    · refine collect_subset hP (h.expand hres) (fun j hj => ?_) (fun j hj => ?_) (he ▸ hr)
      · rcases List.mem_append.1 hj with hj | hj
        · exact hP i hi j (mem_unmet.1 hj).1
        · exact hrest j hj
      · rcases List.mem_cons.1 hj with rfl | hj
        · exact hi
        · exact hs j hj
    · rw [he] at hr
      cases hr

/-- Nothing stops the collection if all nodes that it can meet have existing producers. -/
theorem exists_collect {nodes : List Node} {P : Nat → Prop}
    (hP : ∀ i, P i → ∀ p ∈ producersAt nodes i, P p) (hres : ∀ i, P i → Resolved nodes i) :
    ∀ {fuel : Nat} {stack seen : List Nat}, Collecting nodes stack seen → (∀ i ∈ stack, P i) →
      ∃ result, collect nodes fuel stack seen = .ok result
  | 0, _, seen, _, _ => ⟨seen, rfl⟩
  | _ + 1, [], seen, _, _ => ⟨seen, rfl⟩
  | fuel + 1, i :: stack, seen, h, hst => by
    have hi := hst i (.head _)
    have hrest := fun j hj => hst j (.tail _ hj)
    rcases collect_cons fuel stack seen (h.inRange i (.head _)) with
      ⟨hmet, he⟩ | ⟨-, hr, he⟩ | ⟨-, hn, -⟩
    · rw [he]
      exact exists_collect hP hres (h.skip hmet) hrest
    · rw [he]
      refine exists_collect hP hres (h.expand hr) fun j hj => ?_
      rcases List.mem_append.1 hj with hj | hj
      · exact hP i hi j (mem_unmet.1 hj).1
      · exact hrest j hj
    · exact absurd (hres i hi) hn

/-! ### Arranging -/

/-- What is arranged is in order, and with what is left over it is all there was. -/
theorem arrange_spec {producers : Nat → List Nat} : ∀ {fuel : Nat} {remaining done order left : List Nat},
    Ordered producers [] done → (∀ i ∈ remaining, i ∉ done) → remaining.Nodup →
    arrange producers fuel remaining done = (order, left) →
    Ordered producers [] order ∧ (order ++ left).Perm (done ++ remaining)
  | 0, _, _, _, _, ho, _, _, h => by cases h; exact ⟨ho, .refl _⟩
  | fuel + 1, remaining, done, order, left, ho, hd, hn, h => by
    simp only [arrange] at h
    split at h
    · cases h
      exact ⟨ho, .refl _⟩
    · rename_i i hfind
      have hi := List.mem_of_find?_eq_some hfind
      have hready : ∀ p ∈ producers i, p ∈ done := by simpa using List.find?_some hfind
      have ho' : Ordered producers [] (done ++ [i]) :=
        ho.append ⟨by simpa using hd i hi, fun p hp => by simpa using hready p hp, trivial⟩
      have hd' : ∀ j ∈ remaining.erase i, j ∉ done ++ [i] := by
        intro j hj
        obtain ⟨hji, hj⟩ := hn.mem_erase_iff.1 hj
        simpa [hji] using hd j hj
      obtain ⟨hord, hperm⟩ := arrange_spec ho' hd' (hn.erase i) h
      refine ⟨hord, hperm.trans ?_⟩
      rw [List.append_assoc]
      exact (List.perm_cons_erase hi).symm.append_left done

/-- If levels fall towards the producers, nothing is left over. -/
theorem arrange_complete {producers : Nat → List Nat} {level : Nat → Nat} :
    ∀ {fuel : Nat} {remaining done : List Nat}, Layered producers level done remaining →
      remaining.length ≤ fuel → remaining.Nodup → (arrange producers fuel remaining done).2 = []
  | 0, remaining, done, _, hf, _ => List.eq_nil_of_length_eq_zero (Nat.le_zero.1 hf)
  | fuel + 1, remaining, done, hl, hf, hn => by
    simp only [arrange]
    split
    · rename_i hfind
      cases hmin : remaining.argmin level with
      | none => exact List.argmin_eq_none.1 hmin
      | some i =>
        -- a node of the lowest level is ready: its producers can only be done
        obtain ⟨hi, hle, -⟩ := List.mem_argmin_iff.1 hmin
        have hnot : ∃ p ∈ producers i, p ∉ done := by
          simpa using List.find?_eq_none.1 hfind i hi
        obtain ⟨p, hp, hpd⟩ := hnot
        rcases hl i hi p hp with h | ⟨hpr, hlt⟩
        · exact absurd h hpd
        · exact absurd (hle p hpr) (Nat.not_le.2 hlt)
    · rename_i i hfind
      have hi := List.mem_of_find?_eq_some hfind
      have hl' : Layered producers level (done ++ [i]) (remaining.erase i) := by
        intro j hj p hp
        rcases hl j (List.mem_of_mem_erase hj) p hp with h | ⟨hpr, hlt⟩
        · exact .inl (List.mem_append_left _ h)
        · by_cases hpi : p = i
          · exact .inl (by simp [hpi])
          · exact .inr ⟨(List.mem_erase_of_ne hpi).2 hpr, hlt⟩
      have hf' := List.length_erase_of_mem hi
      exact arrange_complete hl' (by omega) (hn.erase i)

/-! ### Plans -/

theorem outputIndices_eq_ok_iff {count : Nat} : ∀ {outputs : List Int} {os : List Nat},
    outputIndices count outputs = .ok os ↔
      (∀ o ∈ outputs, 0 ≤ o ∧ o < count) ∧ os = outputs.map Int.toNat
  | [], _ => by simp [outputIndices, eq_comm]
  | o :: outputs, os => by
    simp only [outputIndices]
    split
    · rename_i ho
      simp only [bind_eq_ok_iff, outputIndices_eq_ok_iff, List.forall_mem_cons, List.map_cons]
      constructor
      · rintro ⟨rest, ⟨hrest, rfl⟩, heq⟩
        exact ⟨⟨ho, hrest⟩, (Except.ok.inj heq).symm⟩
      · rintro ⟨⟨-, hrest⟩, rfl⟩
        exact ⟨_, ⟨hrest, rfl⟩, rfl⟩
    · rename_i ho
      simp [ho]

/-- What is met from some outputs: the least set of nodes that holds them and the
producers of its nodes, if these producers exist. -/
structure Met (nodes : List Node) (outputs : List Int) (seen : List Nat) : Prop where
  resolved : ∀ i ∈ seen, i < nodes.length ∧ Resolved nodes i
  output : ∀ o ∈ outputs, o.toNat ∈ seen
  closed : ∀ i ∈ seen, ∀ p ∈ producersAt nodes i, p ∈ seen
  least : ∀ P : Nat → Prop, (∀ o ∈ outputs, P o.toNat) →
    (∀ i, P i → ∀ p ∈ producersAt nodes i, P p) → ∀ i ∈ seen, P i

/-- The nodes met, in order of index. -/
def inOrder (nodes : List Node) (seen : List Nat) : List Nat :=
  (List.range nodes.length).filter seen.contains

theorem Met.mem_inOrder {nodes : List Node} {outputs : List Int} {seen : List Nat}
    (h : Met nodes outputs seen) {i : Nat} : i ∈ inOrder nodes seen ↔ i ∈ seen := by
  simpa [inOrder] using fun hi => (h.resolved i hi).1

theorem sorted_inOrder (nodes : List Node) (seen : List Nat) :
    (inOrder nodes seen).Pairwise (· < ·) :=
  List.pairwise_lt_range.filter _

theorem nodup_inOrder (nodes : List Node) (seen : List Nat) : (inOrder nodes seen).Nodup :=
  List.nodup_range.filter _

theorem collecting_outputs {nodes : List Node} {outputs : List Int}
    (hout : ∀ o ∈ outputs, 0 ≤ o ∧ o < nodes.length) :
    Collecting nodes (outputs.map Int.toNat).reverse [] where
  inRange := by
    simp only [List.mem_reverse, List.forall_mem_map]
    intro o ho
    have := hout o ho
    omega
  resolved i hi := by cases hi
  closed i hi := by cases hi

theorem met_of_collect {nodes : List Node} {outputs : List Int} {seen : List Nat}
    (hout : ∀ o ∈ outputs, 0 ≤ o ∧ o < nodes.length)
    (hc : collect nodes (outputs.length + inputCount nodes) (outputs.map Int.toNat).reverse [] =
      .ok seen) : Met nodes outputs seen := by
  have hstart := collecting_outputs hout
  obtain ⟨hend, -, hin⟩ := collect_spec hstart (by simp [pending_nil]) hc
  refine ⟨hend.resolved, fun o ho => hin ?_, fun i hi p hp => ?_, fun P hP hclosed => ?_⟩
  · exact List.mem_reverse.2 (List.mem_map_of_mem ho)
  · simpa using hend.closed i hi p hp
  · exact collect_subset hclosed hstart (by simpa using hP) (by simp) hc

theorem Met.exists_collect {nodes : List Node} {outputs : List Int} {seen : List Nat}
    (h : Met nodes outputs seen) (hout : ∀ o ∈ outputs, 0 ≤ o ∧ o < nodes.length) :
    ∃ seen', collect nodes (outputs.length + inputCount nodes) (outputs.map Int.toNat).reverse [] =
      .ok seen' ∧ inOrder nodes seen' = inOrder nodes seen := by
  have hstack : ∀ i ∈ (outputs.map Int.toNat).reverse, i ∈ seen := by simpa using h.output
  obtain ⟨seen', hc⟩ : ∃ seen', collect nodes (outputs.length + inputCount nodes)
      (outputs.map Int.toNat).reverse [] = .ok seen' :=
    Plan.exists_collect h.closed (fun i hi => (h.resolved i hi).2) (collecting_outputs hout) hstack
  have h' := met_of_collect hout hc
  have hsame : ∀ i, i ∈ seen' ↔ i ∈ seen := fun i =>
    ⟨h'.least _ h.output h.closed i, h.least _ h'.output h'.closed i⟩
  exact ⟨seen', hc, List.filter_congr fun i _ => by simp [hsame i]⟩

/-- What is met from the outputs is planned in the order in which it is arranged. -/
theorem Met.order_eq {nodes : List Node} {outputs : List Int} {seen : List Nat} (h : Met nodes outputs seen) :
    order nodes (inOrder nodes seen) =
      match arrange (producersAt nodes) (inOrder nodes seen).length (inOrder nodes seen) [] with
      | (order, []) => .ok order
      | (_, stuck :: _) => .error (.because (.cycle stuck)) :=
  Plan.order_eq (sorted_inOrder nodes seen) fun i hi p hp =>
    h.mem_inOrder.2 (h.closed i (h.mem_inOrder.1 hi) p hp)

/-- **What a plan is.** The nodes met from the outputs, arranged with nothing left over. -/
theorem ofNodes_eq_ok_iff {nodes : List Node} {outputs : List Int} {plan : List Nat} :
    ofNodes nodes outputs = .ok plan ↔ (∀ o ∈ outputs, 0 ≤ o ∧ o < nodes.length) ∧
      ∃ seen, Met nodes outputs seen ∧
        arrange (producersAt nodes) (inOrder nodes seen).length (inOrder nodes seen) [] =
          (plan, []) := by
  simp only [ofNodes, bind_eq_ok_iff, outputIndices_eq_ok_iff]
  constructor
  · rintro ⟨_, ⟨hout, rfl⟩, seen, hseen, h⟩
    rw [List.length_map] at hseen
    have hmet := met_of_collect hout hseen
    refine ⟨hout, seen, hmet, ?_⟩
    rw [← inOrder, hmet.order_eq] at h
    split at h
    · rename_i harr
      cases h
      exact harr
    · cases h
  · rintro ⟨hout, seen, hmet, harr⟩
    obtain ⟨seen', hc, hsame⟩ := hmet.exists_collect hout
    refine ⟨_, ⟨hout, rfl⟩, seen', by rw [List.length_map]; exact hc, ?_⟩
    rw [← inOrder, hsame, hmet.order_eq, harr]

/-- What a plan for an output is: the nodes that it needs, each once and after
its producers, all of them nodes of the graph. -/
structure Valid (nodes : List Node) (output : Int) (plan : List Nat) : Prop where
  output_lt : 0 ≤ output ∧ output < nodes.length
  ordered : Ordered (producersAt nodes) [] plan
  mem_iff : ∀ i, i ∈ plan ↔ Required nodes output.toNat i
  lt : ∀ i ∈ plan, i < nodes.length
  resolved : ∀ i ∈ plan, Resolved nodes i

theorem Met.mem_iff {nodes : List Node} {output : Int} {seen : List Nat} (h : Met nodes [output] seen)
    (i : Nat) : i ∈ seen ↔ Required nodes output.toNat i := by
  refine ⟨h.least _ (by simpa using .output) (fun _ hi _ hp => hi.producer hp) i, fun hi => ?_⟩
  induction hi with
  | output => exact h.output output (.head _)
  | producer _ hp ih => exact h.closed _ ih _ hp

/-- What is planned is met from outputs that exist, and in order. -/
theorem ofNodes_met {nodes : List Node} {outputs : List Int} {plan : List Nat} (h : ofNodes nodes outputs = .ok plan) :
    (∀ o ∈ outputs, 0 ≤ o ∧ o < nodes.length) ∧ Met nodes outputs plan ∧
      Ordered (producersAt nodes) [] plan := by
  obtain ⟨hout, seen, hmet, harr⟩ := ofNodes_eq_ok_iff.1 h
  have hnil : Ordered (producersAt nodes) [] [] := trivial
  obtain ⟨hord, hperm⟩ := arrange_spec hnil (by simp) (nodup_inOrder nodes seen) harr
  have hmem : ∀ i, i ∈ plan ↔ i ∈ seen := fun i => by
    rw [← hmet.mem_inOrder]
    simpa using hperm.mem_iff
  refine ⟨hout, ⟨fun i hi => ?_, fun o ho => ?_, fun i hi p hp => ?_, fun P hP hc i hi => ?_⟩, hord⟩
  · exact hmet.resolved i ((hmem i).1 hi)
  · exact (hmem _).2 (hmet.output o ho)
  · exact (hmem _).2 (hmet.closed i ((hmem i).1 hi) p hp)
  · exact hmet.least P hP hc i ((hmem i).1 hi)

theorem ofNodes_spec {nodes : List Node} {output : Int} {plan : List Nat}
    (h : ofNodes nodes [output] = .ok plan) : Valid nodes output plan := by
  obtain ⟨hout, hmet, hord⟩ := ofNodes_met h
  exact ⟨hout output (.head _), hord, hmet.mem_iff, fun i hi => (hmet.resolved i hi).1,
    fun i hi => (hmet.resolved i hi).2⟩

theorem Met.exists_ofNodes {nodes : List Node} {outputs : List Int} {seen : List Nat}
    (h : Met nodes outputs seen) (hout : ∀ o ∈ outputs, 0 ≤ o ∧ o < nodes.length) {level : Nat → Nat}
    (hlevel : ∀ i ∈ seen, ∀ p ∈ producersAt nodes i, level p < level i) :
    ∃ plan, ofNodes nodes outputs = .ok plan := by
  have hlayered : Layered (producersAt nodes) level [] (inOrder nodes seen) := by
    intro i hi p hp
    have his := h.mem_inOrder.1 hi
    exact .inr ⟨h.mem_inOrder.2 (h.closed i his p hp), hlevel i his p hp⟩
  have hnil := arrange_complete hlayered (Nat.le_refl _) (nodup_inOrder nodes seen)
  exact ⟨_, ofNodes_eq_ok_iff.2 ⟨hout, seen, h, Prod.ext rfl hnil⟩⟩

theorem exists_met {nodes : List Node} {outputs : List Int} {P : Nat → Prop}
    (hout : ∀ o ∈ outputs, 0 ≤ o ∧ o < nodes.length) (hP : ∀ o ∈ outputs, P o.toNat)
    (hclosed : ∀ i, P i → ∀ p ∈ producersAt nodes i, P p) (hres : ∀ i, P i → Resolved nodes i) :
    ∃ seen, Met nodes outputs seen := by
  obtain ⟨seen, hc⟩ : ∃ seen, collect nodes (outputs.length + inputCount nodes)
      (outputs.map Int.toNat).reverse [] = .ok seen :=
    exists_collect hclosed hres (collecting_outputs hout) (by simpa using hP)
  exact ⟨seen, met_of_collect hout hc⟩

/-- There is a plan if the needed nodes have existing producers at lower levels. -/
theorem exists_ofNodes {nodes : List Node} {output : Int} {level : Nat → Nat}
    (hout : 0 ≤ output ∧ output < nodes.length)
    (hres : ∀ i, Required nodes output.toNat i → Resolved nodes i)
    (hlevel : ∀ i, Required nodes output.toNat i → ∀ p ∈ producersAt nodes i, level p < level i) :
    ∃ plan, ofNodes nodes [output] = .ok plan := by
  have hin : ∀ o ∈ [output], 0 ≤ o ∧ o < nodes.length := by simpa using hout
  have hstart : ∀ o ∈ [output], Required nodes output.toNat o.toNat := by simpa using .output
  obtain ⟨seen, hmet⟩ := exists_met hin hstart (fun _ hi _ hp => hi.producer hp) hres
  exact hmet.exists_ofNodes hin fun i hi =>
    hlevel i (hmet.least _ hstart (fun _ hi _ hp => hi.producer hp) i hi)

end EdgeFacts.Plan
