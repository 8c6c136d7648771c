/-
# Planning takes the first node that is ready

A plan is made by counting: each node waits for a number of producers, and the nodes
that wait for none are queued. What is said about plans is said of a plainer
description: of the nodes that remain, in order of index, the first one comes next
whose producers are all done (`Plan.arrange`). Both take the same node at every turn,
since a node waits for as many producers as are not done, and the queue holds the
nodes that are ready (`Plan.Queued`).

Key definitions: `Plan.arrange`, `Plan.waiting`, `Plan.Queued`.
Key theorems: `Plan.awaitAll_eq`, `Plan.Queued.take`, `Plan.drain_eq`, `Plan.order_eq`.
-/
import Mathlib.Data.List.Nodup
import EdgeFacts.Proofs.Result

namespace EdgeFacts

/-! ### Entries by number -/

section

variable {α : Type} {f : Nat → α} {i : Nat}

theorem lookup?_map : ∀ {is : List Nat}, i ∈ is → lookup? (is.map fun j => (j, f j)) i = some (f i)
  | j :: is, h => by
    by_cases hj : j = i
    · subst hj
      simp [lookup?]
    · have ih : lookup? (is.map fun j => (j, f j)) i = some (f i) :=
        lookup?_map ((List.mem_cons.1 h).resolve_left (Ne.symm hj))
      simp only [lookup?, List.map_cons, List.find?_cons, hj, decide_false] at ih ⊢
      exact ih

theorem replace_map (y : α) (is : List Nat) :
    replace (is.map fun j => (j, f j)) i y = is.map fun j => (j, Function.update f i y j) := by
  rw [replace, List.map_map]
  refine List.map_congr_left fun j _ => ?_
  by_cases hj : j = i
  · subst hj
    simp
  · simp [hj]

end

namespace Plan

/-! ### Nodes that are ready -/

/-- Takes the first of the remaining nodes whose producers are all done, as long
as there is one, and gives the order and the nodes left over. -/
def arrange (producers : Nat → List Nat) : Nat → List Nat → List Nat → List Nat × List Nat
  | 0, remaining, done => (done, remaining)
  | fuel + 1, remaining, done =>
    match remaining.find? fun i => (producers i).all done.contains with
    | none => (done, remaining)
    | some i => arrange producers fuel (remaining.erase i) (done ++ [i])

/-- A table of the nodes to plan. -/
def table {α : Type} (required : List Nat) (f : Nat → α) : List (Nat × α) := required.map fun i => (i, f i)

/-- The nodes to plan that use a node. -/
def usersOf (producers : Nat → List Nat) (required : List Nat) (p : Nat) : List Nat :=
  required.filter fun i => p ∈ producers i

/-- The number of producers of a node that are to be planned and not done. -/
def waiting (producers : Nat → List Nat) (required done : List Nat) (i : Nat) : Nat :=
  required.countP fun p => p ∈ producers i ∧ p ∉ done

/-- The nodes to plan that are not done. -/
def remaining (required done : List Nat) : List Nat := required.filter fun i => i ∉ done

variable {α : Type} {producers : Nat → List Nat} {required done queue : List Nat} {i : Nat}

theorem mem_usersOf {p : Nat} : i ∈ usersOf producers required p ↔ i ∈ required ∧ p ∈ producers i := by
  simp [usersOf]

theorem mem_remaining : i ∈ remaining required done ↔ i ∈ required ∧ i ∉ done := by
  simp [remaining]

theorem waiting_eq_zero (hclosed : ∀ p ∈ producers i, p ∈ required) :
    waiting producers required done i = 0 ↔ ∀ p ∈ producers i, p ∈ done := by
  simp only [waiting, List.countP_eq_zero, decide_eq_true_eq, not_and, not_not]
  exact ⟨fun h p hp => h p (hclosed p hp) hp, fun h p _ hp => h p hp⟩

theorem countP_succ {p q : Nat → Bool} {i : Nat} : ∀ {xs : List Nat}, xs.Nodup → i ∈ xs → p i = false →
    q i = true → (∀ x ∈ xs, x ≠ i → q x = p x) → xs.countP q = xs.countP p + 1
  | x :: xs, hn, hi, hp, hq, h => by
    obtain ⟨hx, hn⟩ := List.nodup_cons.1 hn
    rw [List.countP_cons, List.countP_cons]
    by_cases hxi : x = i
    · subst hxi
      have hrest : xs.countP q = xs.countP p := List.countP_congr fun y hy => by
        rw [h y (.tail _ hy) fun hyx => hx (hyx ▸ hy)]
      simp [hp, hq, hrest]
    · have hi : i ∈ xs := (List.mem_cons.1 hi).resolve_left (Ne.symm hxi)
      have ih := countP_succ hn hi hp hq fun y hy => h y (.tail _ hy)
      rw [ih, h x (.head _) hxi]
      omega

/-! ### Counting -/

theorem table_congr {f g : Nat → α} (h : ∀ i ∈ required, f i = g i) : table required f = table required g :=
  List.map_congr_left fun i hi => by rw [h i hi]

theorem entryOf_table {f : Nat → α} (hi : i ∈ required) : entryOf (table required f) i = .ok (f i) := by
  rw [entryOf, table, lookup?_map hi]
  rfl

theorem replace_table {f : Nat → α} (y : α) : replace (table required f) i y = table required (Function.update f i y) :=
  replace_map y required

theorem map_fst_filter_table {f : Nat → α} (q : α → Bool) :
    ((table required f).filter fun e => q e.2).map (·.1) = required.filter fun i => q (f i) := by
  rw [table, List.filter_map, List.map_map]
  exact List.map_id _

/-- What is counted of a producer: the node is noted as a user, and waits for one more. -/
theorem await_table {users : Nat → List Nat} {waits : Nat → Int} {p : Nat} (hi : i ∈ required) (hp : p ∈ required) :
    await ⟨table required users, table required waits⟩ i p = .ok (if i ∈ users p
      then ⟨table required users, table required waits⟩
      else ⟨table required (Function.update users p (users p ++ [i])),
        table required (Function.update waits i (waits i + 1))⟩) := by
  simp only [await, entryOf_table hi, entryOf_table hp, ok_bind, replace_table, List.contains_iff_mem]
  split <;> rfl

/-- What is counted when a node has been noted at some of its producers. -/
def countsAt (users : Nat → List Nat) (waits : Nat → Int) (required : List Nat) (i : Nat) (noted : List Nat) : Counts :=
  ⟨table required fun p => users p ++ if p ∈ noted then [i] else [],
    table required (Function.update waits i (required.countP (· ∈ noted)))⟩

/-- Each producer of a node is counted once. -/
theorem awaitEach_eq (users : Nat → List Nat) (waits : Nat → Int) (hn : required.Nodup) (hi : i ∈ required)
    (hfresh : ∀ p, i ∉ users p) : ∀ (ps noted : List Nat), (∀ p ∈ ps, p ∈ required) →
    ps.foldlM (await · i) (countsAt users waits required i noted) = .ok (countsAt users waits required i (noted ++ ps))
  | [], noted, _ => by
    rw [List.append_nil]
    rfl
  | p :: ps, noted, hps => by
    have hp : p ∈ required := hps p (.head _)
    have ih := awaitEach_eq users waits hn hi hfresh ps (noted ++ [p]) fun q hq => hps q (.tail _ hq)
    rw [List.append_assoc, List.singleton_append] at ih
    rw [List.foldlM_cons, countsAt, await_table hi hp, ok_bind, ← ih]
    by_cases hnoted : p ∈ noted
    · have hsame : ∀ q, q ∈ noted ++ [p] ↔ q ∈ noted := fun q => by
        simp only [List.mem_append, List.mem_singleton, or_iff_left_iff_imp]
        rintro rfl
        exact hnoted
      simp [countsAt, hnoted, hsame]
    · have hcount : required.countP (· ∈ noted ++ [p]) = required.countP (· ∈ noted) + 1 :=
        countP_succ hn hp (by simpa using hnoted) (by simp) fun q _ hq => by simp [hq]
      have husers : Function.update (fun q => users q ++ if q ∈ noted then [i] else []) p (users p ++ [i]) =
          fun q => users q ++ if q ∈ noted ++ [p] then [i] else [] := by
        funext q
        by_cases hq : q = p
        · subst hq
          simp
        · simp [hq]
      simp only [countsAt, hnoted, if_false, List.append_nil, hfresh p, husers, Function.update_self,
        Function.update_idem, hcount, Int.natCast_add, Int.natCast_one]

/-- How many producers a node waits for when some of the nodes have been gone through. -/
def waitsOf (producers : Nat → List Nat) (required seen : List Nat) (i : Nat) : Int :=
  if i ∈ seen then waiting producers required [] i else 0

/-- What is counted when some of the nodes have been gone through. -/
def countsOf (producers : Nat → List Nat) (required seen : List Nat) : Counts :=
  ⟨table required (usersOf producers seen), table required (waitsOf producers required seen)⟩

theorem awaitEach_countsOf {seen : List Nat} (hn : required.Nodup) (hi : i ∈ required) (hnew : i ∉ seen)
    (hclosed : ∀ p ∈ producers i, p ∈ required) :
    (producers i).foldlM (await · i) (countsOf producers required seen) =
      .ok (countsOf producers required (seen ++ [i])) := by
  have hfresh (p : Nat) : i ∉ usersOf producers seen p := fun h => hnew (mem_usersOf.1 h).1
  have hstart : countsAt (usersOf producers seen) (waitsOf producers required seen) required i [] =
      countsOf producers required seen := by
    have hidle : Function.update (waitsOf producers required seen) i (required.countP (· ∈ ([] : List Nat))) =
        waitsOf producers required seen := by
      rw [Function.update_eq_self_iff]
      simp [waitsOf, hnew]
    rw [countsAt, hidle]
    simp [countsOf]
  have hend : countsAt (usersOf producers seen) (waitsOf producers required seen) required i (producers i) =
      countsOf producers required (seen ++ [i]) := by
    have husers : (fun p => usersOf producers seen p ++ if p ∈ producers i then [i] else []) =
        usersOf producers (seen ++ [i]) := by
      funext p
      simp [usersOf, List.filter_append, List.filter_cons]
    have hwaits : Function.update (waitsOf producers required seen) i (required.countP (· ∈ producers i)) =
        waitsOf producers required (seen ++ [i]) := by
      funext j
      by_cases hj : j = i
      · subst hj
        simp [waitsOf, waiting]
      · simp [waitsOf, hj]
    rw [countsAt, husers, hwaits, countsOf]
  rw [← hstart, ← hend]
  exact awaitEach_eq _ _ hn hi hfresh (producers i) [] hclosed

section

variable {nodes : List Node} (hn : required.Nodup)
  (hclosed : ∀ i ∈ required, ∀ p ∈ producersAt nodes i, p ∈ required)
include hn hclosed

theorem awaitFrom_countsOf : ∀ (is seen : List Nat), (∀ i ∈ is, i ∈ required) → (seen ++ is).Nodup →
    is.foldlM (fun c i => (producersAt nodes i).foldlM (await · i) c) (countsOf (producersAt nodes) required seen) =
      .ok (countsOf (producersAt nodes) required (seen ++ is))
  | [], seen, _, _ => by
    rw [List.append_nil]
    rfl
  | i :: is, seen, his, hnodup => by
    have hi := his i (.head _)
    have hnew : i ∉ seen := fun h => List.disjoint_of_nodup_append hnodup h (.head _)
    rw [List.append_cons] at hnodup ⊢
    rw [List.foldlM_cons, awaitEach_countsOf hn hi hnew (hclosed i hi), ok_bind]
    exact awaitFrom_countsOf is (seen ++ [i]) (fun j hj => his j (.tail _ hj)) hnodup

/-- **What is counted**: the users of each node, and how many producers a node has. -/
theorem awaitAll_eq : awaitAll nodes required = .ok ⟨table required (usersOf (producersAt nodes) required),
    table required fun i => (waiting (producersAt nodes) required [] i : Int)⟩ := by
  have hstart : (⟨required.map (·, []), required.map (·, 0)⟩ : Counts) = countsOf (producersAt nodes) required [] := by
    simp [countsOf, table, usersOf, waitsOf]
  have hend : countsOf (producersAt nodes) required required = ⟨table required (usersOf (producersAt nodes) required),
      table required fun i => (waiting (producersAt nodes) required [] i : Int)⟩ :=
    congrArg (Counts.mk _) (table_congr fun i hi => if_pos hi)
  rw [← hend, awaitAll, hstart]
  exact awaitFrom_countsOf hn hclosed required [] (fun i hi => hi) hn

end

/-! ### Taking nodes from the queue -/

/-- Whether the queue holds the nodes to plan that are ready, each once, when some are done. -/
structure Queued (producers : Nat → List Nat) (required done queue : List Nat) : Prop where
  nodup : queue.Nodup
  mem_iff : ∀ i, i ∈ queue ↔ i ∈ remaining required done ∧ ∀ p ∈ producers i, p ∈ done
  done_nodup : done.Nodup
  planned : ∀ i ∈ done, i ∈ required ∧ ∀ p ∈ producers i, p ∈ done

/-- Nodes that are released wait for one less each, and those that waited for one are queued. -/
theorem releaseEach_eq : ∀ {is : List Nat} {waits : Nat → Int} {queue : List Nat}, is.Nodup →
    (∀ i ∈ is, i ∈ required) →
    is.foldlM (fun s i => release s.1 s.2 i) (table required waits, queue) =
      .ok (table required fun i => if i ∈ is then waits i - 1 else waits i, queue ++ is.filter fun i => waits i = 1)
  | [], waits, queue, _, _ => by simp [pure_eq_ok]
  | i :: is, waits, queue, hn, his => by
    obtain ⟨hi, hn⟩ := List.nodup_cons.1 hn
    rw [List.foldlM_cons, release, entryOf_table (his i (.head _)), ok_bind, replace_table, pure_eq_ok, ok_bind,
      releaseEach_eq hn fun j hj => his j (.tail _ hj)]
    have hwaits : (fun j => if j ∈ is then Function.update waits i (waits i - 1) j - 1
        else Function.update waits i (waits i - 1) j) = fun j => if j ∈ i :: is then waits j - 1 else waits j := by
      funext j
      by_cases hj : j = i
      · subst hj
        simp [hi]
      · simp [hj]
    have hqueue : (is.filter fun j => Function.update waits i (waits i - 1) j = 1) = is.filter fun j => waits j = 1 :=
      List.filter_congr fun j hj => by
        have hne : j ≠ i := fun h => hi (h ▸ hj)
        simp [hne]
    rw [hwaits, hqueue, List.filter_cons]
    by_cases hone : waits i = 1
    · simp [hone]
    · have hne : waits i - 1 ≠ 0 := by omega
      simp [hone, hne]

theorem waiting_append (hn : required.Nodup) (hi : i ∈ required) (hnew : i ∉ done) {j : Nat} (hj : j ∈ required) :
    (waiting producers required (done ++ [i]) j : Int) = if j ∈ usersOf producers required i
      then (waiting producers required done j : Int) - 1 else waiting producers required done j := by
  by_cases hp : i ∈ producers j
  · have hcount : waiting producers required done j = waiting producers required (done ++ [i]) j + 1 := by
      refine countP_succ hn hi (by simp) (by simp [hp, hnew]) fun p _ hpi => ?_
      simp [hpi]
    rw [if_pos (mem_usersOf.2 ⟨hj, hp⟩), hcount]
    omega
  · have hcount : waiting producers required (done ++ [i]) j = waiting producers required done j := by
      refine List.countP_congr fun p _ => ?_
      have hne : p ∈ producers j → p ≠ i := fun h hpi => hp (hpi ▸ h)
      simp only [List.mem_append, List.mem_singleton, not_or, decide_eq_true_eq]
      exact and_congr_right fun h => and_iff_left (hne h)
    rw [if_neg fun h => hp (mem_usersOf.1 h).2, hcount]

/-- The queue is empty where no node is ready, and its least node is the first that is. -/
theorem Queued.min?_eq (h : Queued producers required done queue) (hsorted : required.Pairwise (· < ·)) :
    (remaining required done).find? (fun i => (producers i).all done.contains) = queue.min? := by
  cases hfind : (remaining required done).find? fun i => (producers i).all done.contains with
  | none =>
    have hnil : queue = [] := List.eq_nil_iff_forall_not_mem.2 fun i hi => by
      obtain ⟨hleft, hready⟩ := (h.mem_iff i).1 hi
      exact absurd (by simpa using hready) (List.find?_eq_none.1 hfind i hleft)
    rw [hnil]
    rfl
  | some i =>
    obtain ⟨hready, before, after, hsplit, hbefore⟩ := List.find?_eq_some_iff_append.1 hfind
    refine (List.min?_eq_some_iff.2 ⟨(h.mem_iff i).2 ⟨List.mem_of_find?_eq_some hfind, by simpa using hready⟩,
      fun j hj => ?_⟩).symm
    obtain ⟨hleft, hj⟩ := (h.mem_iff j).1 hj
    have hpairwise : (remaining required done).Pairwise (· < ·) := hsorted.filter _
    rw [hsplit] at hleft hpairwise
    rcases List.mem_append.1 hleft with hjb | hja
    · have hnot := hbefore j hjb
      simp only [Bool.not_eq_true', List.all_eq_false] at hnot
      obtain ⟨p, hp, hpd⟩ := hnot
      exact absurd (hj p hp) (by simpa using hpd)
    · rcases List.mem_cons.1 hja with rfl | hja
      · exact Nat.le_refl _
      · exact Nat.le_of_lt (List.rel_of_pairwise_cons (List.pairwise_append.1 hpairwise).2.1 hja)

theorem erase_remaining (hn : required.Nodup) (i : Nat) :
    (remaining required done).erase i = remaining required (done ++ [i]) := by
  rw [remaining, (hn.filter _).erase_eq_filter, List.filter_filter]
  refine List.filter_congr fun j _ => ?_
  by_cases hj : j = i
  · simp [hj]
  · simp [hj]

section

variable (hn : required.Nodup) (hclosed : ∀ i ∈ required, ∀ p ∈ producers i, p ∈ required)
include hn hclosed

/-- **A turn of the loop**: when a ready node is taken, its users are released, and the
queue holds the nodes that are ready then. -/
theorem Queued.take (h : Queued producers required done queue) (hi : i ∈ queue) :
    ∃ queue', (usersOf producers required i).foldlM (fun s j => release s.1 s.2 j)
        (table required fun j => (waiting producers required done j : Int), queue.erase i) =
      .ok (table required fun j => (waiting producers required (done ++ [i]) j : Int), queue') ∧
      Queued producers required (done ++ [i]) queue' := by
  obtain ⟨hleft, hready⟩ := (h.mem_iff i).1 hi
  obtain ⟨hreq, hnew⟩ := mem_remaining.1 hleft
  have hnext : table required (fun j => if j ∈ usersOf producers required i
      then (waiting producers required done j : Int) - 1 else waiting producers required done j) =
      table required fun j => (waiting producers required (done ++ [i]) j : Int) :=
    table_congr fun j hj => (waiting_append hn hreq hnew hj).symm
  -- a user of the node is released if it waits for the node alone
  have hlast {j : Nat} (hj : j ∈ required) (hp : i ∈ producers j) :
      (waiting producers required done j : Int) = 1 ↔ ∀ p ∈ producers j, p ∈ done ++ [i] := by
    have hone : (waiting producers required (done ++ [i]) j : Int) = _ := waiting_append hn hreq hnew hj
    rw [if_pos (mem_usersOf.2 ⟨hj, hp⟩)] at hone
    rw [← waiting_eq_zero (hclosed j hj)]
    omega
  have hwaits {j : Nat} (hp : i ∈ producers j) : ¬ ∀ p ∈ producers j, p ∈ done := fun hall => hnew (hall i hp)
  have husers : (usersOf producers required i).Nodup := hn.filter _
  refine ⟨queue.erase i ++ (usersOf producers required i).filter fun j =>
    (waiting producers required done j : Int) = 1, ?_, ?_, fun j => ?_, ?_, ?_⟩
  · rw [releaseEach_eq husers fun j hj => (mem_usersOf.1 hj).1, hnext]
  · refine (h.nodup.erase i).append (husers.filter _) fun j hj hj' => ?_
    exact hwaits (mem_usersOf.1 (List.mem_of_mem_filter hj')).2 ((h.mem_iff j).1 (List.mem_of_mem_erase hj)).2
  · simp only [List.mem_append, h.nodup.mem_erase_iff, h.mem_iff, List.mem_filter, mem_usersOf, decide_eq_true_eq,
      mem_remaining, List.mem_singleton, not_or]
    constructor
    · rintro (⟨hji, ⟨hj, hjnew⟩, hall⟩ | ⟨⟨hj, hp⟩, hone⟩)
      · exact ⟨⟨hj, hjnew, hji⟩, fun p hp => .inl (hall p hp)⟩
      · refine ⟨⟨hj, fun hdone => hwaits hp (h.planned j hdone).2, ?_⟩, by simpa using (hlast hj hp).1 hone⟩
        rintro rfl
        exact hwaits hp hready
    · rintro ⟨⟨hj, hjnew, hji⟩, hall⟩
      by_cases hp : i ∈ producers j
      · exact .inr ⟨⟨hj, hp⟩, (hlast hj hp).2 (by simpa using hall)⟩
      · refine .inl ⟨hji, ⟨hj, hjnew⟩, fun p hpj => (hall p hpj).resolve_right ?_⟩
        rintro rfl
        exact hp hpj
  · exact h.done_nodup.append (List.nodup_singleton i) (List.disjoint_singleton.2 hnew)
  · intro j hj
    rcases List.mem_append.1 hj with hj | hj
    · exact ⟨(h.planned j hj).1, fun p hp => List.mem_append_left _ ((h.planned j hj).2 p hp)⟩
    · obtain rfl := List.mem_singleton.1 hj
      exact ⟨hreq, fun p hp => List.mem_append_left _ (hready p hp)⟩

/-- **The loop takes the first ready node at every turn**, until none is ready. -/
theorem drain_eq (hsorted : required.Pairwise (· < ·)) : ∀ {fuel : Nat} {done queue : List Nat},
    Queued producers required done queue → (remaining required done).length ≤ fuel →
    ∃ order, drain (table required (usersOf producers required)) fuel
        (table required fun j => (waiting producers required done j : Int)) queue done =
      .ok (order, table required fun j => (waiting producers required order j : Int)) ∧
      arrange producers fuel (remaining required done) done = (order, remaining required order) ∧
      Queued producers required order []
  | 0, done, queue, h, hfuel => by
    have hnil : remaining required done = [] := List.eq_nil_of_length_eq_zero (by omega)
    have hqueue : queue = [] := List.eq_nil_iff_forall_not_mem.2 fun i hi => by
      have hi := ((h.mem_iff i).1 hi).1
      rw [hnil] at hi
      cases hi
    exact ⟨done, rfl, rfl, hqueue ▸ h⟩
  | fuel + 1, done, queue, h, hfuel => by
    rw [drain, arrange, h.min?_eq hsorted]
    cases hmin : queue.min? with
    | none => exact ⟨done, rfl, rfl, List.min?_eq_none_iff.1 hmin ▸ h⟩
    | some i =>
      have hi : i ∈ queue := (List.min?_eq_some_iff.1 hmin).1
      have hleft := ((h.mem_iff i).1 hi).1
      obtain ⟨queue', hrelease, hqueued⟩ := h.take hn hclosed hi
      have hlength := List.length_erase_of_mem hleft
      rw [erase_remaining hn] at hlength
      obtain ⟨order, hdrain, harrange, hend⟩ := drain_eq hsorted hqueued
        (show (remaining required (done ++ [i])).length ≤ fuel by omega)
      rw [← erase_remaining hn] at harrange
      refine ⟨order, ?_, harrange, hend⟩
      simp only [entryOf_table (mem_remaining.1 hleft).1, ok_bind, hrelease]
      exact hdrain

omit hn in
/-- What is left over when the loop ends are the nodes that still wait. -/
theorem Queued.waiting_iff (h : Queued producers required done []) {i : Nat} (hi : i ∈ required) :
    0 < (waiting producers required done i : Int) ↔ i ∉ done := by
  have hzero : waiting producers required done i = 0 ↔ _ := waiting_eq_zero (hclosed i hi)
  have hnone : ¬ (i ∈ remaining required done ∧ ∀ p ∈ producers i, p ∈ done) := (h.mem_iff i).not.1 List.not_mem_nil
  rw [mem_remaining] at hnone
  constructor
  · intro hpos hdone
    have := hzero.2 (h.planned i hdone).2
    omega
  · intro hdone
    have : waiting producers required done i ≠ 0 := fun h0 => hnone ⟨⟨hi, hdone⟩, hzero.1 h0⟩
    omega

end

/-- Nothing is left over exactly if as many nodes are in order as there are to plan. -/
theorem Queued.length_eq_iff (h : Queued producers required done queue) (hn : required.Nodup) :
    done.length = required.length ↔ remaining required done = [] := by
  have hdone : (required.filter fun i => i ∈ done).length = done.length := by
    refine List.Perm.length_eq ((List.perm_ext_iff_of_nodup (hn.filter _) h.done_nodup).2 fun i => ?_)
    simpa using fun hi => (h.planned i hi).1
  have hlength := List.length_eq_length_filter_add (l := required) fun i => decide (i ∈ done)
  have hleft : (required.filter fun i => !decide (i ∈ done)) = remaining required done :=
    List.filter_congr fun i _ => by simp
  rw [hdone, hleft] at hlength
  rw [← List.length_eq_zero_iff]
  omega

/-- **The plan is an arrangement of the nodes**; if some are left over, the first of them is told. -/
theorem order_eq {nodes : List Node} (hsorted : required.Pairwise (· < ·))
    (hclosed : ∀ i ∈ required, ∀ p ∈ producersAt nodes i, p ∈ required) :
    order nodes required = match arrange (producersAt nodes) required.length required [] with
      | (order, []) => .ok order
      | (_, stuck :: _) => .error (.because (.cycle stuck)) := by
  have hn : required.Nodup := hsorted.imp Nat.ne_of_lt
  have hall : remaining required [] = required := by simp [remaining]
  have hidle : ((table required fun i => (waiting (producersAt nodes) required [] i : Int)).filter
      fun e => e.2 = 0).map (·.1) = required.filter fun i => waiting (producersAt nodes) required [] i = 0 :=
    (map_fst_filter_table fun n : Int => n = 0).trans (List.filter_congr fun i _ => by simp)
  have hqueued : Queued (producersAt nodes) required []
      (required.filter fun i => waiting (producersAt nodes) required [] i = 0) := by
    refine ⟨hn.filter _, fun i => ?_, .nil, fun i hi => nomatch hi⟩
    rw [hall, List.mem_filter, decide_eq_true_eq]
    exact and_congr_right fun hi => waiting_eq_zero (hclosed i hi)
  obtain ⟨done, hdrain, harrange, hend⟩ := drain_eq hn hclosed hsorted hqueued
    (Nat.le_of_eq (congrArg List.length hall))
  have hstuck : ((table required fun i => (waiting (producersAt nodes) required done i : Int)).filter
      fun e => 0 < e.2).map (·.1) = remaining required done :=
    (map_fst_filter_table fun n : Int => 0 < n).trans (List.filter_congr fun i hi =>
      decide_eq_decide.2 (hend.waiting_iff hclosed hi))
  rw [hall] at harrange
  simp only [order, awaitAll_eq hn hclosed, ok_bind, hidle, hdrain, harrange, hend.length_eq_iff hn, hstuck]
  have hleft : (remaining required done).Pairwise (· < ·) := hsorted.filter _
  cases hrest : remaining required done with
  | nil => rfl
  | cons stuck rest =>
    have hmin : (stuck :: rest).min? = some stuck := by
      rw [hrest] at hleft
      refine List.min?_eq_some_iff.2 ⟨.head _, fun j hj => ?_⟩
      rcases List.mem_cons.1 hj with rfl | hj
      · exact Nat.le_refl _
      · exact Nat.le_of_lt (List.rel_of_pairwise_cons hleft hj)
    rw [if_neg (List.cons_ne_nil stuck rest), hmin]
    rfl

end Plan

end EdgeFacts
