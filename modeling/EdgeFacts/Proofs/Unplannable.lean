/-
# Why there is no plan

There is a plan unless an output is no node, a needed node has an input that is no
node, or a needed node lies on a cycle. Which of these is told follows the order in
which a plan is made: the outputs are looked at first, then the inputs of what they
need, and only a graph in which all of these exist is arranged. The nodes that
cannot be arranged are those behind a cycle (`Plan.BehindCycle`): each of them
waits for a producer that waits as well (`Plan.arrange_stuck`), and of them the
least is told.

Key definitions: `Plan.IsNode`, `Plan.Dangles`, `Plan.BehindCycle`, `Plan.FailsWith`.
Key theorems: `Plan.collect_error`, `Plan.arrange_stuck`, `Plan.mem_stuck_iff`,
`Plan.ofNodes_error`, `Plan.ofNodes_classified`.
-/
import Mathlib.Order.Bounds.Defs
import EdgeFacts.Failure.Wording
import EdgeFacts.Proofs.Canonical

namespace EdgeFacts

/-- Whether a failure is told as one of the plan, with a code and at a node. -/
def Failure.IsPlan (e : Failure) (code : String) (node : Int) : Prop :=
  ∃ r, e.report? = some r ∧ r.kind = .plan (.int node) ∧ r.code = code

namespace Plan

variable {nodes : List Node} {outputs : List Int}

/-- Whether a number is that of a node. -/
def IsNode (nodes : List Node) (p : Int) : Prop := 0 ≤ p ∧ p < nodes.length

instance (nodes : List Node) (p : Int) : Decidable (IsNode nodes p) :=
  inferInstanceAs (Decidable (0 ≤ p ∧ p < nodes.length))

/-- Whether a node has an input that is no node. -/
def Dangles (nodes : List Node) (i : Nat) : Prop := ∃ p, Consumes nodes i p ∧ ¬ IsNode nodes p

/-- Whether a node lies on a cycle or consumes one, directly or through others. -/
def BehindCycle (nodes : List Node) (i : Nat) : Prop :=
  ∃ c, Relation.TransGen (Feeds nodes) c c ∧ Relation.ReflTransGen (Feeds nodes) c i

/-- Whether no plan is made for the outputs, for a reason with a code and a node. -/
def FailsWith (nodes : List Node) (outputs : List Int) (code : String) (node : Int) : Prop :=
  ∃ e, ofNodes nodes outputs = .error e ∧ e.IsPlan code node

/-! ### What failures tell -/

/-- A cause with a node and a code of its own is told with these. -/
theorem isPlan_because {cause : Cause} {n : Int} (hkind : cause.kind = .plan (.int n))
    (hown : cause.ownCode.isEmpty = false) {code : String} {v : Int} :
    (Failure.because cause).IsPlan code v ↔ code = cause.ownCode ∧ v = n := by
  constructor
  · rintro ⟨r, hr, hrkind, hcode⟩
    cases hr
    have hv : ReportKind.plan (.int n) = .plan (.int v) := by
      rw [← hkind]
      exact hrkind
    have hc : cause.ownCode = code := by simpa [hown] using hcode
    exact ⟨hc.symm, by cases hv; rfl⟩
  · rintro ⟨rfl, rfl⟩
    exact ⟨_, rfl, hkind, by simp [hown]⟩

theorem isPlan_outputOutside {o v : Int} {code : String} :
    (Failure.because (.outputOutside o)).IsPlan code v ↔ code = "EDANGLING" ∧ v = o :=
  isPlan_because rfl rfl

theorem isPlan_plannedDanglingInput {name : String} {p v : Int} {i : Nat} {code : String} :
    (Failure.because (.plannedDanglingInput name p i)).IsPlan code v ↔ code = "EDANGLING" ∧ v = i :=
  isPlan_because rfl rfl

theorem isPlan_cycle {v : Int} {k : Nat} {code : String} :
    (Failure.because (.cycle k)).IsPlan code v ↔ code = "ECYCLE" ∧ v = k :=
  isPlan_because rfl rfl

/-! ### Outputs and inputs that are no nodes -/

theorem outputIndices_error {count : Nat} : ∀ {outputs : List Int} {e : Failure},
    outputIndices count outputs = .error e →
    ∃ o : Int, outputs.find? (fun o => ¬ (0 ≤ o ∧ o < (count : Int))) = some o ∧
      e = .because (.outputOutside o)
  | [], _, h => by cases h
  | o :: outputs, e, h => by
    unfold outputIndices at h
    by_cases ho : 0 ≤ o ∧ o < count
    · rw [if_pos ho] at h
      cases hrest : outputIndices count outputs with
      | ok os =>
        rw [hrest] at h
        cases h
      | error e' =>
        rw [hrest] at h
        cases h
        obtain ⟨o', hfind, he⟩ := outputIndices_error hrest
        exact ⟨o', by simpa [List.find?_cons, ho] using hfind, he⟩
    · rw [if_neg ho] at h
      cases h
      exact ⟨o, List.find?_cons_of_pos (decide_eq_true ho), rfl⟩

theorem dangles_iff {i : Nat} : Dangles nodes i ↔ ¬ Resolved nodes i := by
  rw [resolved_iff_consumes]
  simp only [Dangles, IsNode, not_forall]
  exact ⟨fun ⟨p, hc, hp⟩ => ⟨p, hc, hp⟩, fun ⟨p, hc, hp⟩ => ⟨p, hc, hp⟩⟩

/-- The collection of nodes stops at one of them that has an input which is no node. -/
theorem collect_error {P : Nat → Prop}
    (hP : ∀ i, P i → Resolved nodes i → ∀ p ∈ producersAt nodes i, P p) :
    ∀ {fuel : Nat} {stack seen : List Nat} {e : Failure}, (∀ i ∈ stack, P i) →
      collect nodes fuel stack seen = .error e →
      ∃ i n p, P i ∧ nodes[i]? = some n ∧ n.danglingProducer? nodes.length = some p ∧
        e = .because (.plannedDanglingInput n.name p i)
  | 0, _, _, _, _, h => by cases h
  | _ + 1, [], _, _, _, h => by cases h
  | fuel + 1, i :: stack, seen, e, hst, h => by
    have hi : P i := hst i (.head _)
    have hrest : ∀ j ∈ stack, P j := fun j hj => hst j (.tail _ hj)
    unfold collect at h
    by_cases hs : seen.contains i = true
    · rw [if_pos hs] at h
      exact collect_error hP hrest h
    · rw [if_neg hs] at h
      cases hn : nodes[i]? with
      | none =>
        simp only [hn] at h
        exact collect_error hP hrest h
      | some n =>
        simp only [hn] at h
        cases hd : n.danglingProducer? nodes.length with
        | some p =>
          simp only [hd] at h
          cases h
          exact ⟨i, n, p, hi, hn, hd, rfl⟩
        | none =>
          simp only [hd] at h
          refine collect_error hP (fun j hj => ?_) h
          rcases List.mem_append.1 hj with hj | hj
          · have hj' : j ∈ n.producers := List.mem_of_mem_filter (List.mem_reverse.1 hj)
            exact hP i hi ((resolved_iff hn).2 hd) j (mem_producersAt_of_node hn hj')
          · exact hrest j hj

/-! ### Nodes behind a cycle -/

theorem BehindCycle.of_feeds {p i : Nat} (h : BehindCycle nodes p) (hp : Feeds nodes p i) :
    BehindCycle nodes i := by
  obtain ⟨c, hc, hcp⟩ := h
  exact ⟨c, hc, hcp.tail hp⟩

theorem BehindCycle.of_transGen {i : Nat} (h : Relation.TransGen (Feeds nodes) i i) : BehindCycle nodes i :=
  ⟨i, h, .refl⟩

theorem Needed.of_reflTransGen {c i : Nat} (h : Relation.ReflTransGen (Feeds nodes) c i)
    (hi : Needed nodes outputs i) : Needed nodes outputs c := by
  induction h using Relation.ReflTransGen.head_induction_on with
  | refl => exact hi
  | head hp _ ih => exact ih.producer hp

theorem Ordered.not_behindCycle {plan : List Nat} (h : Ordered (producersAt nodes) [] plan) {i : Nat}
    (hi : i ∈ plan) : ¬ BehindCycle nodes i := by
  rintro ⟨c, hcycle, hci⟩
  have hc : c ∈ plan := by
    rcases Relation.reflTransGen_iff_eq_or_transGen.1 hci with rfl | hci
    · exact hi
    · exact (h.idxOf_lt_of_transGen hci hi).1
  exact Nat.lt_irrefl _ (h.idxOf_lt_of_transGen hcycle hc).2

/-- Nodes each of which is fed by one of them are behind a cycle. -/
theorem behindCycle_of_fed {left : List Nat} (hlt : ∀ i ∈ left, i < nodes.length)
    (hfed : ∀ i ∈ left, ∃ p ∈ left, Feeds nodes p i) : ∀ i ∈ left, BehindCycle nodes i := by
  -- by induction on the level, which falls from a node behind no cycle to what feeds it
  have hlevel : ∀ k, ∀ i ∈ left, level nodes i ≤ k → BehindCycle nodes i := by
    intro k
    induction k with
    | zero =>
      intro i hi hk
      obtain ⟨p, hp, hpi⟩ := hfed i hi
      by_contra hnot
      have hcycle : ¬ Relation.TransGen (Feeds nodes) p p := fun h =>
        hnot ((BehindCycle.of_transGen h).of_feeds hpi)
      have := hpi.level_lt (hlt p hp) hcycle
      omega
    | succ k ih =>
      intro i hi hk
      obtain ⟨p, hp, hpi⟩ := hfed i hi
      by_cases hcycle : Relation.TransGen (Feeds nodes) p p
      · exact (BehindCycle.of_transGen hcycle).of_feeds hpi
      · have := hpi.level_lt (hlt p hp) hcycle
        exact (ih p hp (by omega)).of_feeds hpi
  exact fun i hi => hlevel _ i hi (Nat.le_refl _)

/-! ### What cannot be arranged -/

/-- What is left over keeps its order, and each node of it waits for a producer that
is not done either. -/
theorem arrange_stuck {producers : Nat → List Nat} : ∀ {fuel : Nat} {remaining done order left : List Nat},
    remaining.length ≤ fuel → arrange producers fuel remaining done = (order, left) →
    left.Sublist remaining ∧ ∀ i ∈ left, ∃ p ∈ producers i, p ∉ order
  | 0, remaining, _, _, _, hf, h => by
    have hnil : remaining = [] := List.eq_nil_of_length_eq_zero (by omega)
    subst hnil
    cases h
    exact ⟨.refl _, List.forall_mem_nil _⟩
  | fuel + 1, remaining, done, order, left, hf, h => by
    unfold arrange at h
    cases hfind : remaining.find? fun i => (producers i).all done.contains with
    | none =>
      rw [hfind] at h
      cases h
      refine ⟨.refl _, fun i hi => ?_⟩
      simpa using List.find?_eq_none.1 hfind i hi
    | some i =>
      rw [hfind] at h
      have hi := List.mem_of_find?_eq_some hfind
      have hlen := List.length_erase_of_mem hi
      obtain ⟨hsub, hwait⟩ := arrange_stuck (by omega) h
      exact ⟨hsub.trans List.erase_sublist, hwait⟩

/-- **What is left over is what is behind a cycle**, in order. -/
theorem mem_stuck_iff {seen order left : List Nat} (hmet : Met nodes outputs seen)
    (hout : ∀ o ∈ outputs, IsNode nodes o)
    (h : arrange (producersAt nodes) (inOrder nodes seen).length (inOrder nodes seen) [] = (order, left)) :
    left.Pairwise (· < ·) ∧ ∀ i, i ∈ left ↔ Needed nodes outputs i ∧ BehindCycle nodes i := by
  have hnil : Ordered (producersAt nodes) [] [] := trivial
  obtain ⟨hord, hperm⟩ := arrange_spec hnil (by simp) (nodup_inOrder nodes seen) h
  obtain ⟨hsub, hwait⟩ := arrange_stuck (Nat.le_refl _) h
  have hmem : ∀ i, i ∈ order ∨ i ∈ left ↔ Needed nodes outputs i := fun i => by
    rw [← hmet.mem_iff_needed hout, ← hmet.mem_inOrder, ← List.mem_append]
    simpa using hperm.mem_iff
  have hresolved : ∀ i ∈ left, i < nodes.length ∧ Resolved nodes i := fun i hi =>
    hmet.resolved i ((hmet.mem_iff_needed hout i).2 ((hmem i).1 (.inr hi)))
  have hfed : ∀ i ∈ left, ∃ p ∈ left, Feeds nodes p i := by
    intro i hi
    obtain ⟨p, hp, hnot⟩ := hwait i hi
    have hfeeds : Feeds nodes p i := (hresolved i hi).2.mem_producersAt_iff.1 hp
    have hneed : Needed nodes outputs p := ((hmem i).1 (.inr hi)).producer hfeeds
    exact ⟨p, ((hmem p).2 hneed).resolve_left hnot, hfeeds⟩
  refine ⟨(sorted_inOrder nodes seen).sublist hsub, fun i => ⟨fun hi => ?_, fun ⟨hneed, hcycle⟩ => ?_⟩⟩
  · exact ⟨(hmem i).1 (.inr hi), behindCycle_of_fed (fun j hj => (hresolved j hj).1) hfed i hi⟩
  · exact ((hmem i).2 hneed).resolve_left fun hi => hord.not_behindCycle hi hcycle

/-! ### Why there is no plan -/

/-- **A plan fails in one of three ways**: at the first output that is no node; if
there is none, at a needed node with an input that is no node; if there is none
either, at the least of the needed nodes behind a cycle. -/
theorem ofNodes_error {e : Failure} (h : ofNodes nodes outputs = .error e) :
    (∃ o, outputs.find? (fun o => ¬ IsNode nodes o) = some o ∧ e = .because (.outputOutside o)) ∨
    (∀ o ∈ outputs, IsNode nodes o) ∧
      ((∃ i n p, Needed nodes outputs i ∧ nodes[i]? = some n ∧ n.danglingProducer? nodes.length = some p ∧
          e = .because (.plannedDanglingInput n.name p i)) ∨
        (∀ i, Needed nodes outputs i → ¬ Dangles nodes i) ∧
          ∃ k, IsLeast {i | Needed nodes outputs i ∧ BehindCycle nodes i} k ∧ e = .because (.cycle k)) := by
  unfold ofNodes at h
  cases hindices : outputIndices nodes.length outputs with
  | error e' =>
    rw [hindices] at h
    cases h
    exact .inl (outputIndices_error hindices)
  | ok os =>
    rw [hindices, ok_bind] at h
    obtain ⟨hout, rfl⟩ := outputIndices_eq_ok_iff.1 hindices
    refine .inr ⟨hout, ?_⟩
    have hstart : ∀ i ∈ (outputs.map Int.toNat).reverse, Needed nodes outputs i := by
      simp only [List.mem_reverse, List.forall_mem_map]
      intro o ho
      exact .output (by rwa [Int.toNat_of_nonneg (hout o ho).1])
    rw [List.length_map] at h
    cases hseen : collect nodes (outputs.length + inputCount nodes) (outputs.map Int.toNat).reverse [] with
    | error e' =>
      rw [hseen] at h
      cases h
      exact .inl (collect_error (fun i hi hres p hp => hi.producer (hres.mem_producersAt_iff.1 hp)) hstart hseen)
    | ok seen =>
      have hmet := met_of_collect hout hseen
      rw [hseen, ok_bind, ← inOrder, hmet.order_eq] at h
      right
      refine ⟨fun i hi => ?_, ?_⟩
      · rw [dangles_iff, not_not]
        exact (hmet.resolved i ((hmet.mem_iff_needed hout i).2 hi)).2
      · split at h
        · cases h
        · rename_i order stuck left harr
          cases h
          obtain ⟨hsorted, hmem⟩ := mem_stuck_iff hmet hout harr
          refine ⟨stuck, ⟨(hmem stuck).1 (.head _), fun i hi => ?_⟩, rfl⟩
          rcases List.mem_cons.1 ((hmem i).2 hi) with rfl | hi
          · exact Nat.le_refl _
          · exact Nat.le_of_lt (List.rel_of_pairwise_cons hsorted hi)

theorem isPlan_of_ofNodes {e : Failure} (h : ofNodes nodes outputs = .error e) :
    ∃ v, e.IsPlan "EDANGLING" v ∨ e.IsPlan "ECYCLE" v := by
  rcases ofNodes_error h with ⟨o, -, rfl⟩ | ⟨-, ⟨i, n, p, -, -, -, rfl⟩ | ⟨-, k, -, rfl⟩⟩
  · exact ⟨o, .inl (isPlan_outputOutside.2 ⟨rfl, rfl⟩)⟩
  · exact ⟨i, .inl (isPlan_plannedDanglingInput.2 ⟨rfl, rfl⟩)⟩
  · exact ⟨k, .inr (isPlan_cycle.2 ⟨rfl, rfl⟩)⟩

theorem exists_failsWith (h : ¬ Plannable nodes outputs) :
    ∃ v, FailsWith nodes outputs "EDANGLING" v ∨ FailsWith nodes outputs "ECYCLE" v := by
  cases he : ofNodes nodes outputs with
  | ok plan => exact absurd (plannable_of_ofNodes he) h
  | error e =>
    obtain ⟨v, hv⟩ := isPlan_of_ofNodes he
    exact ⟨v, hv.imp (fun hv => ⟨e, he, hv⟩) fun hv => ⟨e, he, hv⟩⟩

/-- What does not exist is told of the first output that is no node, or else of a
needed node. -/
theorem FailsWith.dangling {v : Int} (h : FailsWith nodes outputs "EDANGLING" v) :
    outputs.find? (fun o => ¬ IsNode nodes o) = some v ∨
      (∀ o ∈ outputs, IsNode nodes o) ∧ ∃ i : Nat, v = i ∧ Needed nodes outputs i ∧ Dangles nodes i := by
  obtain ⟨e, he, hv⟩ := h
  rcases ofNodes_error he with ⟨o, hfind, rfl⟩ | ⟨hout, ⟨i, n, p, hi, hn, hd, rfl⟩ | ⟨-, k, -, rfl⟩⟩
  · obtain ⟨-, rfl⟩ := isPlan_outputOutside.1 hv
    exact .inl hfind
  · obtain ⟨-, rfl⟩ := isPlan_plannedDanglingInput.1 hv
    have hdangles : Dangles nodes i := by
      rw [dangles_iff, resolved_iff hn, hd]
      exact Option.some_ne_none p
    exact .inr ⟨hout, i, rfl, hi, hdangles⟩
  · have hcode := (isPlan_cycle.1 hv).1
    contradiction

/-- A cycle is told, of the least node behind one, only if all that is needed exists. -/
theorem FailsWith.cycle {v : Int} (h : FailsWith nodes outputs "ECYCLE" v) :
    (∀ o ∈ outputs, IsNode nodes o) ∧ (∀ i, Needed nodes outputs i → ¬ Dangles nodes i) ∧
      ∃ k : Nat, v = k ∧ IsLeast {i | Needed nodes outputs i ∧ BehindCycle nodes i} k := by
  obtain ⟨e, he, hv⟩ := h
  rcases ofNodes_error he with ⟨o, -, rfl⟩ | ⟨hout, ⟨i, n, p, -, -, -, rfl⟩ | ⟨hexist, k, hk, rfl⟩⟩
  · have hcode := (isPlan_outputOutside.1 hv).1
    contradiction
  · have hcode := (isPlan_plannedDanglingInput.1 hv).1
    contradiction
  · obtain ⟨-, rfl⟩ := isPlan_cycle.1 hv
    exact ⟨hout, hexist, k, rfl, hk⟩

theorem Needed.exists_cycle {i : Nat} (hi : Needed nodes outputs i) (h : BehindCycle nodes i) :
    ∃ c, Needed nodes outputs c ∧ Relation.TransGen (Feeds nodes) c c := by
  obtain ⟨c, hcycle, hci⟩ := h
  exact ⟨c, .of_reflTransGen hci hi, hcycle⟩

/-- **Failures of the plan are classified exactly.** What does not exist is told if and
only if an output is no node, which the first such output is told of, or a needed node
has an input that is no node, which such a node is told of, be there cycles or not.
Otherwise a cycle is told if and only if a needed node lies on one, of the least needed
node that lies on a cycle or consumes one directly or through others. Nothing else is told. -/
theorem ofNodes_classified (nodes : List Node) (outputs : List Int) :
    ((∃ v, FailsWith nodes outputs "EDANGLING" v) ↔
      (∃ o ∈ outputs, ¬ IsNode nodes o) ∨ ∃ i, Needed nodes outputs i ∧ Dangles nodes i) ∧
    (∀ v, FailsWith nodes outputs "EDANGLING" v →
      outputs.find? (fun o => ¬ IsNode nodes o) = some v ∨
        (∀ o ∈ outputs, IsNode nodes o) ∧
          ∃ i : Nat, v = i ∧ Needed nodes outputs i ∧ Dangles nodes i) ∧
    ((∃ v, FailsWith nodes outputs "ECYCLE" v) ↔
      ((∀ o ∈ outputs, IsNode nodes o) ∧ ∀ i, Needed nodes outputs i → ¬ Dangles nodes i) ∧
        ∃ i, Needed nodes outputs i ∧ Relation.TransGen (Feeds nodes) i i) ∧
    (∀ v, FailsWith nodes outputs "ECYCLE" v →
      ∃ k : Nat, v = k ∧ IsLeast {i | Needed nodes outputs i ∧ BehindCycle nodes i} k) ∧
    ∀ e, ofNodes nodes outputs = .error e → ∃ v, e.IsPlan "EDANGLING" v ∨ e.IsPlan "ECYCLE" v := by
  refine ⟨⟨?_, fun h => ?_⟩, fun v h => h.dangling, ⟨?_, ?_⟩, fun v h => h.cycle.2.2,
    fun e => isPlan_of_ofNodes⟩
  · rintro ⟨v, h⟩
    rcases h.dangling with hfind | ⟨-, i, -, hi, hd⟩
    · have hout : ¬ IsNode nodes v := by simpa using List.find?_some hfind
      exact .inl ⟨v, List.mem_of_find?_eq_some hfind, hout⟩
    · exact .inr ⟨i, hi, hd⟩
  · have hnot : ¬ Plannable nodes outputs := by
      rintro ⟨hout, hin, -⟩
      rcases h with ⟨o, ho, hno⟩ | ⟨i, hi, p, hc, hp⟩
      · exact hno (hout o ho)
      · exact hp (hin i hi p hc)
    obtain ⟨v, hv | hv⟩ := exists_failsWith hnot
    · exact ⟨v, hv⟩
    · obtain ⟨hout, hexist, -⟩ := hv.cycle
      rcases h with ⟨o, ho, hno⟩ | ⟨i, hi, hd⟩
      · exact absurd (hout o ho) hno
      · exact absurd hd (hexist i hi)
  · rintro ⟨v, h⟩
    obtain ⟨hout, hexist, k, -, hk⟩ := h.cycle
    exact ⟨⟨hout, hexist⟩, hk.1.1.exists_cycle hk.1.2⟩
  · rintro ⟨⟨hout, hexist⟩, i, hi, hcycle⟩
    obtain ⟨v, hv | hv⟩ := exists_failsWith fun h => h.acyclic i hi hcycle
    · rcases hv.dangling with hfind | ⟨-, j, -, hj, hd⟩
      · have hno : ¬ IsNode nodes v := by simpa using List.find?_some hfind
        exact absurd (hout v (List.mem_of_find?_eq_some hfind)) hno
      · exact absurd hd (hexist j hj)
    · exact ⟨v, hv⟩

/-- A node that only consumes a cycle is told if it is the least one that waits. -/
example : ofNodes [⟨0, "y", "Relu", .relu, [⟨1, none⟩]⟩, ⟨1, "a", "Relu", .relu, [⟨2, none⟩]⟩,
    ⟨2, "b", "Relu", .relu, [⟨1, none⟩]⟩] [0] = .error (.because (.cycle 0)) :=
  rfl

end Plan

end EdgeFacts
