/-
# Chunks flow through a plan

When chunks of the streamed input arrive, each streamed node advances at its pace:
after any number of them it has delivered some first chunks of its output
(`Analysis.Flow`). What it has delivered is what evaluation gives on the chunks of
the input so far, and evaluation fails where nothing has been delivered
(`Analysis.Flow.evaluateAll_eq_ok_iff`).

Key definitions: `Analysis.Flow`.
Key theorems: `Plan.Ordered.exists_solution`, `Analysis.Streamable.exists_flow`,
`Analysis.Flow.step`, `Analysis.Flow.evaluateAll_eq_ok_iff`.
-/
import EdgeFacts.Proofs.Streamable

namespace EdgeFacts

open ShapeFact (along)

/-- What each node takes from its producers can be taken at all nodes in order. -/
theorem Plan.Ordered.exists_solution {α : Type} {producers : Nat → List Nat} {g : Nat → (Nat → α) → α}
    (hg : ∀ i f f', (∀ p ∈ producers i, f p = f' p) → g i f = g i f') :
    ∀ {plan done : List Nat} (f₀ : Nat → α), Plan.Ordered producers done plan →
      ∃ f, (∀ i, i ∉ plan → f i = f₀ i) ∧ ∀ i ∈ plan, f i = g i f
  | [], _, f₀, _ => ⟨f₀, fun _ _ => rfl, fun _ hi => nomatch hi⟩
  | i :: rest, done, f₀, h => by
    have hrest := h.2.2.nodup.2
    obtain ⟨f, hkeep, hsol⟩ := exists_solution hg (Function.update f₀ i (g i f₀)) h.2.2
    refine ⟨f, fun j hj => ?_, fun j hj => ?_⟩
    · rw [List.mem_cons, not_or] at hj
      rw [hkeep j hj.2, Function.update_of_ne hj.1]
    · rcases List.mem_cons.1 hj with rfl | hj
      · rw [hkeep j fun hjr => hrest j hjr (.head _), Function.update_self]
        refine hg j _ _ fun p hp => ?_
        have hdone := h.2.1 hp
        have hpj : p ≠ j := fun heq => h.1 (heq ▸ hdone)
        rw [hkeep p fun hpr => hrest p hpr (.tail _ hdone), Function.update_of_ne hpj]
      · exact hsol j hj

namespace Analysis

/-! ### Flows -/

/-- Whether counts and states are those of the nodes of a plan after any number of
chunks of an input that is streamed: `count i m` chunks of its output has node `i`
delivered after `m` of them, at a pace that it keeps with its streamed producer. -/
structure Flow (a : Analysis) (x : Nat) (value : Nat → Tensor) (axis : Nat) (count : Nat → Nat → Nat)
    (state : Nat → Nat → Option StreamBuffer) : Prop where
  source_mem : x ∈ a.plan
  source_op : ∃ n, a.nodes[x]? = some n ∧ n.op.isPlaceholder = true
  source_axis : a.outputAxis x = some axis
  source_count : count x = id
  source_state : ∀ m, state x m = none
  axis_lt : ∀ i ∈ a.plan, ∀ k, a.outputAxis i = some k → k < (value i).rank
  /-- What is not streamed needs nothing that is. -/
  whole : ∀ i ∈ a.plan, a.outputAxis i = none → ∀ p ∈ Plan.producersAt a.nodes i, a.outputAxis p = none
  paced : ∀ i ∈ a.plan, i ≠ x → ∀ n k, a.nodes[i]? = some n → a.outputAxis i = some k →
    n.op.isPlaceholder = false ∧ ∃ p ∈ n.producers, ∃ l rate st, a.outputAxis p = some l ∧
      (∀ q ∈ n.producers, a.outputAxis q ≠ none → q = p) ∧
      Pace n.op (n.producers.map (a.port value)) (value i) k ((value p).extent l) rate st ∧
      count i = rate ∘ count p ∧ state i = st ∘ count p

theorem eq_of_length_le_one {α : Type} : ∀ {xs : List α} {y z : α},
    xs.length ≤ 1 → y ∈ xs → z ∈ xs → y = z
  | [w], y, z, _, hy, hz => (List.mem_singleton.1 hy).trans (List.mem_singleton.1 hz).symm
  | _ :: _ :: _, _, _, h, _, _ => absurd h (by simp)

namespace Streamable

variable {a : Analysis} {inputs : Table Tensor} {x : Node} {fact : TensorFact}
  (h : a.Streamable inputs x fact) (hw : WellFormed a) (hlib : OfLibrary a) (hstable : a.Stable) {t : Tensor}
  {axis : Nat} (hfact : fact.shape = along t.shape (some axis)) (haxis : axis < t.rank)
  {value : Nat → Tensor} (hvalue : Evaluated a.nodes (a.fed inputs x t) a.plan value)
  (hsums : a.SumsUniformly value)
include h hw hlib hstable hfact haxis hvalue hsums

theorem exists_paces : ∃ (producer : Nat → Nat) (rate : Nat → Nat → Nat) (st : Nat → Nat → Option StreamBuffer),
    ∀ i ∈ a.plan, i ≠ x.id.toNat → ∀ n k, a.nodes[i]? = some n → a.outputAxis i = some k →
      producer i ∈ n.producers ∧ ∃ l, a.outputAxis (producer i) = some l ∧
        Pace n.op (n.producers.map (a.port value)) (value i) k ((value (producer i)).extent l) (rate i) (st i) := by
  have hpace : ∀ i, ∃ p rate st, i ∈ a.plan → i ≠ x.id.toNat → ∀ n k, a.nodes[i]? = some n →
      a.outputAxis i = some k → p ∈ n.producers ∧ ∃ l, a.outputAxis p = some l ∧
        Pace n.op (n.producers.map (a.port value)) (value i) k ((value p).extent l) rate st := by
    intro i
    by_cases hcase : i ∈ a.plan ∧ i ≠ x.id.toNat ∧ ∃ n k, a.nodes[i]? = some n ∧ a.outputAxis i = some k
    · obtain ⟨hi, hix, n, k, hn, hk⟩ := hcase
      obtain ⟨-, p, hp, l, rate, st, hl, hpace⟩ := h.exists_pace hw hlib hstable hfact haxis hvalue hsums hi hn
        (h.isPlaceholder_eq_false hw hvalue hi hix hn hk) hk
      refine ⟨p, rate, st, fun _ _ m k' hm hk' => ?_⟩
      cases hn.symm.trans hm
      cases hk.symm.trans hk'
      exact ⟨hp, l, hl, hpace⟩
    · exact ⟨0, id, fun _ => none, fun hi hix n k hn hk => absurd ⟨hi, hix, n, k, hn, hk⟩ hcase⟩
  choose producer rate st hpace using hpace
  exact ⟨producer, rate, st, hpace⟩

theorem axis_lt_rank {i : Nat} (hi : i ∈ a.plan) {k : Nat} (hk : a.outputAxis i = some k) : k < (value i).rank := by
  obtain ⟨n, hn⟩ := hw.exists_node hi
  by_cases hix : i = x.id.toNat
  · subst hix
    obtain ⟨-, hsource⟩ := h.source_of_streamed hw hlib hstable hfact haxis hvalue hsums _ hi
      (by rw [hk]; exact Option.some_ne_none k)
    cases hsource.symm.trans hk
    rcases h.placeholder_cases hw hvalue hi (h.source hw).1 (by rw [h.declared]; rfl) with ⟨-, -, ht⟩ | ⟨f, hid, -⟩
    · rwa [ht]
    · exact absurd rfl hid
  · exact (h.exists_pace hw hlib hstable hfact haxis hvalue hsums hi hn
      (h.isPlaceholder_eq_false hw hvalue hi hix hn hk) hk).1

/-- **Chunks flow through the plan of a streamable analysis**, if its output is streamed
and what is not streamed needs nothing that is. -/
theorem exists_flow
    (hwhole : ∀ i ∈ a.plan, a.outputAxis i = none → ∀ p ∈ Plan.producersAt a.nodes i, a.outputAxis p = none)
    (hout : a.outputAxis a.output.toNat ≠ none) :
    ∃ count state, a.Flow x.id.toNat value axis count state := by
  have htells := h.tells hw hlib hstable hfact haxis hvalue hsums
  obtain ⟨hmem, hsource⟩ :=
    h.source_of_streamed hw hlib hstable hfact haxis hvalue hsums _ hw.output_mem hout
  obtain ⟨producer, rate, st, hpace⟩ := h.exists_paces hw hlib hstable hfact haxis hvalue hsums
  -- The counts are told by the paces, from the streamed input on.
  obtain ⟨count, -, hcount⟩ := hw.ordered.exists_solution
    (g := fun i f => if i = x.id.toNat then id
      else if producer i ∈ Plan.producersAt a.nodes i then rate i ∘ f (producer i) else id)
    (fun i f f' hf => by
      by_cases hp : producer i ∈ Plan.producersAt a.nodes i
      · rw [hf _ hp]
      · simp only [hp, if_false]) fun _ => id
  refine ⟨count, fun i m => if i = x.id.toNat then none else st i (count (producer i) m),
    hmem, ⟨x, (h.source hw).1, by rw [h.declared]; rfl⟩, hsource, ?_, fun m => if_pos rfl,
    fun i hi k => h.axis_lt_rank hw hlib hstable hfact haxis hvalue hsums hi, hwhole, fun i hi hix n k hn hk => ?_⟩
  · rw [hcount _ hmem, if_pos rfl]
  · obtain ⟨hp, l, hl, hstep⟩ := hpace i hi hix n k hn hk
    refine ⟨h.isPlaceholder_eq_false hw hvalue hi hix hn hk, producer i, hp, l, rate i, st i, hl,
      fun q hq hne => ?_, hstep, ?_, ?_⟩
    · have hle := h.length_streamed_le hw hi hn fun p hp =>
        htells p (hw.ordered.idxOf_lt hi (Plan.mem_producersAt_of_node hn hp)).1
      refine eq_of_length_le_one hle ?_ ?_
      · exact List.mem_filter.2 ⟨hq, Option.isSome_iff_ne_none.2 hne⟩
      · exact List.mem_filter.2 ⟨hp, by rw [hl]; rfl⟩
    · rw [hcount i hi, if_neg hix, if_pos (Plan.mem_producersAt_of_node hn hp)]
    · exact funext fun m => if_neg hix

end Streamable

namespace Flow

variable {a : Analysis} {x : Nat} {value : Nat → Tensor} {axis : Nat} {count : Nat → Nat → Nat}
  {state : Nat → Nat → Option StreamBuffer} (h : a.Flow x value axis count state)
include h

theorem evaluateNode_whole {i m : Nat} {n : Node} (hi : i ∈ a.plan) (hn : a.nodes[i]? = some n)
    {feed results : Nat → Except Failure Tensor}
    (hresults : ∀ p ∈ n.producers, ∀ t, results p = .ok t ↔
      (∀ k, a.outputAxis p = some k → 0 < count p m) ∧ t = (a.port value p).slice 0 (count p m))
    (hk : a.outputAxis i = none)
    (hat : if n.op.isPlaceholder then feed i = .ok (value i)
      else n.op.eval (n.producers.map value) = .ok (value i)) :
    evaluateNode a.nodes feed results i = .ok (value i) := by
  rw [evaluateNode_eq hn]
  split at hat
  · rename_i hop
    rw [if_pos hop, hat]
  · rename_i hop
    have hmap : n.producers.mapM results = .ok (n.producers.map value) := by
      refine mapM_producers_eq_ok fun p hp => (hresults p hp _).2 ?_
      have hnone := h.whole i hi hk p (Plan.mem_producersAt_of_node hn hp)
      refine ⟨fun k hk => ?_, (port_slice_of_whole hnone _).symm⟩
      cases hnone.symm.trans hk
    rw [if_neg hop, hmap]
    exact hat

variable (hw : WellFormed a)
include hw

/-- **Counts advance**, and stay within the extents that are streamed. -/
theorem advances : ∀ i ∈ a.plan, ∀ k, a.outputAxis i = some k →
    Advances (count i) ∧ ∀ m ≤ (value x).extent axis, count i m ≤ (value i).extent k := by
  refine hw.ordered.induction (fun i hi => nomatch hi) fun i hi ih k hk => ?_
  by_cases hix : i = x
  · subst hix
    cases h.source_axis.symm.trans hk
    rw [h.source_count]
    exact ⟨.id, fun m hm => hm⟩
  · obtain ⟨n, hn⟩ := hw.exists_node hi
    obtain ⟨-, p, hp, l, rate, st, hl, -, hpace, hcount, -⟩ := h.paced i hi hix n k hn hk
    obtain ⟨hadvances, hle⟩ := ih p (Plan.mem_producersAt_of_node hn hp) l hl
    rw [hcount]
    exact ⟨hpace.advances.comp hadvances, fun m hm => hpace.rate_le _ (hle m hm)⟩

section

variable {i : Nat} {n : Node} {k : Nat} (hi : i ∈ a.plan) (hix : i ≠ x) (hn : a.nodes[i]? = some n)
  (hk : a.outputAxis i = some k)
include hi hix hn hk

/-- **A node takes a step** when a chunk of the input arrives. -/
theorem step {m : Nat} (hm : m < (value x).extent axis) :
    n.op.step (n.producers.map fun p => (a.port value p).seen (count p m) (count p (m + 1))) (state i m) =
      (.ok ((value i).chunk? k (count i m) (count i (m + 1))), state i (m + 1)) := by
  obtain ⟨-, p, hp, l, rate, st, hl, honly, hpace, hcount, hstate⟩ := h.paced i hi hix n k hn hk
  have hplan := (hw.ordered.idxOf_lt hi (p := p) (Plan.mem_producersAt_of_node hn hp)).1
  obtain ⟨hadvances, hle⟩ := h.advances hw p hplan l hl
  have hseen : (n.producers.map fun q => (a.port value q).seen (count q m) (count q (m + 1))) =
      (n.producers.map (a.port value)).map (·.seen (count p m) (count p (m + 1))) := by
    rw [List.map_map]
    refine List.map_congr_left fun q hq => ?_
    by_cases hnone : a.outputAxis q = none
    · rw [Function.comp_apply, Port.seen_of_whole hnone, Port.seen_of_whole hnone]
    · rw [honly q hq hnone]
      rfl
  rw [hseen, hcount, hstate]
  exact hpace.step _ _ (hadvances.succ m) (hle _ hm)

/-- What a node computes from the first chunks of its inputs. -/
theorem front {m : Nat} (hm : m ≤ (value x).extent axis) : ∃ p ∈ n.producers, a.outputAxis p ≠ none ∧
    (0 < count i m → 0 < count p m) ∧ (0 < count p m → ∀ t,
      n.op.eval (n.producers.map fun q => (a.port value q).slice 0 (count q m)) = .ok t ↔
        0 < count i m ∧ t = (value i).slice k 0 (count i m)) := by
  obtain ⟨-, p, hp, l, rate, st, hl, honly, hpace, hcount, -⟩ := h.paced i hi hix n k hn hk
  have hplan := (hw.ordered.idxOf_lt hi (p := p) (Plan.mem_producersAt_of_node hn hp)).1
  obtain ⟨-, hle⟩ := h.advances hw p hplan l hl
  refine ⟨p, hp, by rw [hl]; exact Option.some_ne_none l, fun hpos => ?_, fun hpos => ?_⟩
  · rw [hcount, Function.comp_apply] at hpos
    refine Nat.pos_of_ne_zero fun hzero => ?_
    rw [hzero, hpace.advances.zero] at hpos
    exact Nat.lt_irrefl 0 hpos
  · have hslice : (n.producers.map fun q => (a.port value q).slice 0 (count q m)) =
        (n.producers.map (a.port value)).map (·.slice 0 (count p m)) := by
      rw [List.map_map]
      refine List.map_congr_left fun q hq => ?_
      by_cases hnone : a.outputAxis q = none
      · rw [Function.comp_apply, Port.slice_of_whole hnone, Port.slice_of_whole hnone]
      · rw [honly q hq hnone]
        rfl
    rw [hslice, hcount]
    exact hpace.front _ hpos (hle m hm)

end

section

variable {i m : Nat} {n : Node} (hi : i ∈ a.plan) (hix : i ≠ x) (hn : a.nodes[i]? = some n)
  {feed results : Nat → Except Failure Tensor}
  (hresults : ∀ p ∈ n.producers, ∀ t, results p = .ok t ↔
    (∀ k, a.outputAxis p = some k → 0 < count p m) ∧ t = (a.port value p).slice 0 (count p m))
include hi hix hn hresults

theorem evaluateNode_streamed {k : Nat} (hk : a.outputAxis i = some k) (hm : m ≤ (value x).extent axis) (t : Tensor) :
    evaluateNode a.nodes feed results i = .ok t ↔ 0 < count i m ∧ t = (value i).slice k 0 (count i m) := by
  obtain ⟨hop, p', -, -, -, -, -, honly, -⟩ := h.paced i hi hix n k hn hk
  obtain ⟨p, hp, hne, hback, hfront⟩ := h.front hw hi hix hn hk hm
  rw [evaluateNode_eq hn, hop, if_neg Bool.false_ne_true]
  by_cases hcount : 0 < count p m
  · -- All producers have delivered something, and the node computes from that.
    have hmap : n.producers.mapM results =
        .ok (n.producers.map fun q => (a.port value q).slice 0 (count q m)) := by
      refine mapM_producers_eq_ok fun q hq => (hresults q hq _).2 ⟨fun l hl => ?_, rfl⟩
      have hstreamed : a.outputAxis q ≠ none := by
        rw [hl]
        exact Option.some_ne_none l
      rw [(honly q hq hstreamed).trans (honly p hp hne).symm]
      exact hcount
    rw [hmap]
    exact hfront hcount t
  · -- The streamed producer has delivered nothing yet, so there is nothing to compute from.
    refine ⟨fun ht => ?_, fun ht => absurd (hback ht.1) hcount⟩
    obtain ⟨us, hmap, -⟩ := bind_eq_ok_iff.1 ht
    obtain ⟨u, hu⟩ := exists_of_mapM hmap p hp
    obtain ⟨l, hl⟩ := Option.ne_none_iff_exists'.1 hne
    exact absurd (((hresults p hp u).1 hu).1 l hl) hcount

end

/-- **Evaluation on the first chunks** succeeds at the nodes that have delivered
something, and gives what they have delivered. -/
theorem evaluateAll_eq_ok_iff {feed feed' : Nat → Except Failure Tensor}
    (hvalue : Evaluated a.nodes feed a.plan value) {m : Nat} (hpos : 0 < m) (hm : m ≤ (value x).extent axis)
    (hfeed : feed' x = .ok ((value x).slice axis 0 m)) (hothers : ∀ i, i ≠ x → feed' i = feed i)
    {plan : List Nat} (ho : Plan.Ordered (Plan.producersAt a.nodes) [] plan) (hsub : plan ⊆ a.plan) :
    ∀ i ∈ plan, ∀ t, evaluateAll a.nodes feed' plan noResults i = .ok t ↔
      (∀ k, a.outputAxis i = some k → 0 < count i m) ∧ t = (a.port value i).slice 0 (count i m) := by
  refine ho.induction (fun i hi => absurd hi List.not_mem_nil) fun i hi ih t => ?_
  have hplan := hsub hi
  obtain ⟨n, hn⟩ := hw.exists_node hplan
  have hresults : ∀ p ∈ n.producers, ∀ t, evaluateAll a.nodes feed' plan noResults p = .ok t ↔
      (∀ k, a.outputAxis p = some k → 0 < count p m) ∧ t = (a.port value p).slice 0 (count p m) :=
    fun p hp => ih p (Plan.mem_producersAt_of_node hn hp)
  rw [evaluateAll_eq ho hi]
  by_cases hix : i = x
  · subst hix
    obtain ⟨n', hn', hop⟩ := h.source_op
    have hcount : count i m = m := congrFun h.source_count m
    rw [evaluateNode_eq hn', if_pos hop, hfeed, port, Port.slice, h.source_axis, hcount, Except.ok.injEq]
    exact ⟨fun ht => ⟨fun _ _ => hpos, ht.symm⟩, fun ht => ht.2.symm⟩
  cases hk : a.outputAxis i with
  | none =>
    have hat : if n.op.isPlaceholder then feed' i = .ok (value i)
        else n.op.eval (n.producers.map value) = .ok (value i) := by
      rw [hothers i hix]
      exact hvalue i hplan n hn
    rw [port_slice_of_whole hk, h.evaluateNode_whole hplan hn hresults hk hat, Except.ok.injEq]
    exact ⟨fun ht => ⟨fun k hk => absurd hk.symm (Option.some_ne_none k), ht.symm⟩, fun ht => ht.2.symm⟩
  | some k =>
    have hslice : (a.port value i).slice 0 (count i m) = (value i).slice k 0 (count i m) := by
      rw [port, Port.slice, hk]
    rw [hslice, h.evaluateNode_streamed hw hplan hix hn hresults hk hm]
    exact ⟨fun ht => ⟨fun _ _ => ht.1, ht.2⟩, fun ht => ⟨ht.1 k rfl, ht.2⟩⟩

end Flow

end Analysis

end EdgeFacts
