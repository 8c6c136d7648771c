/-
# Streams that meet in a sum

A sum of two streams keeps nothing between pushes. It delivers at a push if both of
its producers do, and then the sum of the two chunks; a chunk that comes alone is
dropped (`Sums`). So of the pushes at which one producer delivers it answers those at
which the other delivers as well. It delivers as many chunks as the producer that
delivers fewer exactly if that one never delivers alone, and where the producers
always deliver together its chunks are the sums of theirs, in order
(`Analysis.sums_delivered`). Producers that wait for different inputs of the model
never deliver together, so a sum of them delivers nothing at all (`Analysis.merge_lost`).

Key definitions: `Session.Sums`, `Session.chunks`, `Session.WaitsFor`.
Key theorems: `Session.StartedBy.sums`, `Session.StartedBy.waits_none`,
`Session.length_chunks_eq_min_iff`, `Analysis.sums_delivered`.
-/
import EdgeFacts.Proofs.Consistent
import EdgeFacts.Proofs.Push

namespace EdgeFacts

/-! ### Steps without a chunk -/

/-- **No operator delivers** where a chunk of one of its inputs is missing. -/
theorem Operator.step_eq_none {op : Operator} {inputs : List StepInput} {state state' : Option StreamBuffer}
    {r : Option Tensor} (h : op.step inputs state = (.ok r, state')) {y : StepInput} (hy : y ∈ inputs)
    (hnone : y.chunk = none) : r = none := by
  rcases op.step_cases inputs state with hstep | ⟨e, hstep⟩ |
    ⟨sums, strideH, strideW, axis, buffer, chunk, filter, -, -, rfl, -⟩
  · rw [hstep, stepChunkwise, mapM_chunk_eq_none hy hnone] at h
    cases h
    rfl
  · rw [hstep] at h
    cases h
  · simp only [List.mem_cons, List.not_mem_nil, or_false] at hy
    rcases hy with rfl | rfl <;> cases hnone

namespace Session

variable {a : Analysis} {s s' : Session} {d : Delivered} {x y : Nat}

/-! ### Waiting for an input -/

/-- Whether a node delivers only at pushes into an input of the model, as the input or
as one that takes the stream of a node that does. -/
inductive WaitsFor (s : Session) (y : Nat) : Int → Prop where
  | self {m : StreamNode} (hm : m ∈ s.plan) (hop : m.node.op.isPlaceholder = true) (hy : m.index = y) :
      WaitsFor s y m.index
  | taker {m : StreamNode} {i : Input} {k : Nat} (hm : m ∈ s.plan) (hop : m.node.op.isPlaceholder = false)
      (hi : (i, some k) ∈ m.node.inputs.zip m.inputAxes) (h : WaitsFor s y i.producer) : WaitsFor s y m.index

theorem SameTables.waitsFor (hsame : SameTables s s') {i : Int} (h : s.WaitsFor y i) : s'.WaitsFor y i := by
  induction h with
  | self hm hop hy => exact .self (hsame.plan ▸ hm) hop hy
  | taker hm hop hi _ ih => exact .taker (hsame.plan ▸ hm) hop hi ih

theorem mem_of_stepInputs {m : StreamNode} {inputs : List StepInput} (h : s.stepInputs d m = .ok inputs)
    {i : Input} {k : Nat} (hi : (i, some k) ∈ m.node.inputs.zip m.inputAxes) :
    ⟨some (k : Int), delivered d i.producer⟩ ∈ inputs := by
  obtain ⟨z, hz, hstep⟩ := exists_of_forall₂ (mapM_eq_ok_iff.1 h).flip _ hi
  cases hstep
  exact hz

/-- **A node delivers nothing at pushes into other inputs** than the one it waits for. -/
theorem StartedBy.waits_none (h : s.StartedBy a) {name : String} (hsource : s.source name = .ok x) (hxy : x ≠ y)
    (htook : ∀ m ∈ s.plan, Took x s d s' m) {i : Int} (hi : s.WaitsFor y i) : delivered d i = none := by
  induction hi with
  | self hm hop hy =>
    cases htook _ hm with
    | source hx => exact absurd (hx.symm.trans hy) hxy
    | whole _ _ hnone => exact hnone
    | input _ _ _ hnone => exact hnone
    | step _ _ hop' => exact nomatch hop.symm.trans hop'
  | taker hm hop hi _ ih =>
    cases htook _ hm with
    | source hx => exact nomatch hop.symm.trans (h.isPlaceholder_source hsource hm hx)
    | whole _ _ hnone => exact hnone
    | input _ _ hop' => exact nomatch hop.symm.trans hop'
    | step _ _ _ inputs hinputs hstep => exact Operator.step_eq_none hstep (mem_of_stepInputs hinputs hi) ih

/-! ### Sums -/

/-- What a sum of two streams delivers at a push: the sum of the chunks of both, or nothing. -/
inductive Sums (d : Delivered) (p q z : Int) : Prop where
  | both {b c t : Tensor} (hp : delivered d p = some b) (hq : delivered d q = some c)
      (ht : Operator.add.eval [b, c] = .ok t) (hz : delivered d z = some t)
  | missing (h : delivered d p = none ∨ delivered d q = none) (hz : delivered d z = none)

theorem Sums.isSome {p q z : Int} (h : Sums d p q z) :
    (delivered d z).isSome = ((delivered d p).isSome && (delivered d q).isSome) := by
  cases h with
  | both hp hq _ hz => rw [hp, hq, hz]; rfl
  | missing h hz => rcases h with h | h <;> simp [h, hz]

/-- A sum takes its step on the chunks of one push only. -/
theorem sums_of_took {z : StreamNode} {p q : Input} {k l : Nat} (hop : z.node.op = .add)
    (hinputs : z.node.inputs = [p, q]) (haxes : z.inputAxes = [some k, some l]) (hs : s.isStreamed z.index = true)
    (hx : z.index ≠ x) (h : Took x s d s' z) : Sums d p.producer q.producer z.index := by
  cases h with
  | source hx' => exact absurd hx' hx
  | whole _ hs' => exact nomatch hs.symm.trans hs'
  | input _ _ hop' =>
    rw [hop] at hop'
    cases hop'
  | step _ _ _ inputs hin hstep =>
    simp only [stepInputs, hinputs, haxes] at hin
    cases hin
    rw [hop] at hstep
    cases hp : delivered d p.producer with
    | none => exact .missing (.inl hp) (Operator.step_eq_none hstep (.head _) hp)
    | some b =>
      cases hq : delivered d q.producer with
      | none => exact .missing (.inr hq) (Operator.step_eq_none hstep (.tail _ (.head _)) hq)
      | some c =>
        simp only [hp, hq] at hstep
        obtain ⟨t, ht, hz⟩ := map_eq_ok_iff.1 (congrArg Prod.fst hstep)
        exact .both hp hq ht hz.symm

/-- **What a sum of two streams delivers** at any push. -/
theorem StartedBy.sums (h : s.StartedBy a) {z : StreamNode} {p q : Input} {k l : Nat} (hz : z ∈ s.plan)
    (hop : z.node.op = .add) (hinputs : z.node.inputs = [p, q]) (haxes : z.inputAxes = [some k, some l])
    (name : String) (chunk : Tensor) : Sums (s.deliveries name chunk) p.producer q.producer z.index := by
  rcases deliveries_took h.inOrder name chunk with hd | ⟨x, hsource, htook⟩
  · exact hd ▸ .missing (.inl (delivered_nil _)) (delivered_nil _)
  · have hk : some k ∈ z.inputAxes := haxes ▸ List.mem_cons_self
    have hs : s.isStreamed z.index = true := h.isStreamed_of_axis hz hk
    refine sums_of_took hop hinputs haxes hs (fun hx => ?_) (htook z hz)
    have hplaceholder := h.isPlaceholder_source hsource hz hx
    rw [hop] at hplaceholder
    cases hplaceholder

/-- A sum of nodes that wait for different inputs delivers nothing. -/
theorem StartedBy.sums_none (h : s.StartedBy a) {p q z : Int} {name : String} {chunk : Tensor}
    (hsums : Sums (s.deliveries name chunk) p q z) (hxy : x ≠ y) (hp : s.WaitsFor x p) (hq : s.WaitsFor y q) :
    delivered (s.deliveries name chunk) z = none := by
  rcases deliveries_took h.inOrder name chunk with hd | ⟨i, hsource, htook⟩
  · rw [hd, delivered_nil]
  · have hmissing : delivered (s.deliveries name chunk) p = none ∨ delivered (s.deliveries name chunk) q = none := by
      by_cases hix : i = x
      · exact .inr (h.waits_none hsource (hix ▸ hxy) htook hq)
      · exact .inl (h.waits_none hsource hix htook hp)
    have hz := hsums.isSome
    rcases hmissing with hnone | hnone <;> simpa [hnone] using hz

/-! ### Chunks over some pushes -/

/-- The chunks that a node delivers over some pushes, in order. -/
def chunks (h : List Delivered) (i : Int) : List Tensor := h.filterMap fun d => delivered d i

theorem length_chunks (h : List Delivered) (i : Int) :
    (chunks h i).length = h.countP fun d => (delivered d i).isSome := List.length_filterMap_eq_countP ..

section

variable {h : List Delivered} {p q z : Int}
  (hboth : ∀ d ∈ h, (delivered d z).isSome = ((delivered d p).isSome && (delivered d q).isSome))
include hboth

theorem length_chunks_le : (chunks h z).length ≤ (chunks h p).length := by
  rw [length_chunks, length_chunks]
  exact List.countP_mono_left fun d hd hz => (Bool.and_eq_true_iff.1 (hboth d hd ▸ hz)).1

/-- What delivers with two others misses no chunk of the first if that never delivers alone. -/
theorem length_chunks_eq_iff : (chunks h z).length = (chunks h p).length ↔
    ∀ d ∈ h, (delivered d p).isSome → (delivered d q).isSome := by
  have hamong : (h.countP fun d => (delivered d z).isSome) =
      (h.filter fun d => (delivered d p).isSome).countP fun d => (delivered d q).isSome := by
    rw [List.countP_filter]
    exact List.countP_congr fun d hd => by rw [hboth d hd, Bool.and_comm]
  rw [length_chunks, length_chunks, hamong, List.countP_eq_length_filter (p := fun d => (delivered d p).isSome),
    List.countP_eq_length]
  simp only [List.mem_filter, and_imp]

end

section

variable {h : List Delivered} {p q z : Int} (hsums : ∀ d ∈ h, Sums d p q z)
include hsums

/-- **A sum loses no chunk** of the producer that delivers fewer exactly if that one
never delivers without the other. -/
theorem length_chunks_eq_min_iff : (chunks h z).length = min (chunks h p).length (chunks h q).length ↔
    (∀ d ∈ h, (delivered d p).isSome → (delivered d q).isSome) ∨
      ∀ d ∈ h, (delivered d q).isSome → (delivered d p).isSome := by
  have hpq : ∀ d ∈ h, (delivered d z).isSome = ((delivered d p).isSome && (delivered d q).isSome) :=
    fun d hd => (hsums d hd).isSome
  have hqp : ∀ d ∈ h, (delivered d z).isSome = ((delivered d q).isSome && (delivered d p).isSome) :=
    fun d hd => (hpq d hd).trans (Bool.and_comm ..)
  have hp := length_chunks_le hpq
  have hq := length_chunks_le hqp
  calc (chunks h z).length = min (chunks h p).length (chunks h q).length
    _ ↔ (chunks h z).length = (chunks h p).length ∨ (chunks h z).length = (chunks h q).length := by omega
    _ ↔ _ := or_congr (length_chunks_eq_iff hpq) (length_chunks_eq_iff hqp)

/-- **Where the producers deliver together**, the chunks of the sum are the sums of theirs. -/
theorem chunks_sums (htogether : ∀ d ∈ h, (delivered d p).isSome = (delivered d q).isSome) :
    (chunks h p).length = (chunks h q).length ∧
      List.Forall₂ (fun (o : Tensor × Tensor) t => Operator.add.eval [o.1, o.2] = .ok t)
        ((chunks h p).zip (chunks h q)) (chunks h z) := by
  induction h with
  | nil => exact ⟨rfl, .nil⟩
  | cons d h ih =>
    obtain ⟨hlen, hrest⟩ := ih (fun e he => hsums e (.tail _ he)) fun e he => htogether e (.tail _ he)
    have hd := htogether d (.head _)
    simp only [chunks, List.filterMap_cons] at hlen hrest ⊢
    cases hsums d (.head _) with
    | both hp hq ht hz =>
      simp only [hp, hq, hz, List.length_cons, hlen, List.zip_cons_cons, true_and]
      exact .cons ht hrest
    | missing hmissing hz =>
      obtain ⟨hp, hq⟩ : delivered d p = none ∧ delivered d q = none := by
        rcases hmissing with hnone | hnone <;> simpa [hnone] using hd
      simp only [hp, hq, hz]
      exact ⟨hlen, hrest⟩

end

end Session

/-- The sum of two inputs that are streamed. -/
def merge : Model := ⟨[
  ⟨0, "x", "Placeholder", .placeholder streamedList, []⟩,
  ⟨1, "y", "Placeholder", .placeholder streamedList, []⟩,
  ⟨2, "z", "Add", .add, [⟨0, none⟩, ⟨1, none⟩]⟩]⟩

namespace Analysis

open Session

/-- **A sum of two streams answers the pushes at which both of them deliver.** Take a
session of an analysis of a model of any operators, after any calls, a sum in it of
two streams, and any pushes, into whichever inputs and whether they succeed or fail.
At each push the sum delivers the sum of the two chunks if both producers deliver, and
nothing if one does not. So it has delivered as many chunks as the producer that has
delivered fewer exactly if one of the two never delivers without the other; if they
always deliver together its chunks are the sums of theirs, in order; and if they wait
for different inputs of the model it delivers nothing at all. -/
theorem sums_delivered {model : Model} {output : Int} {limit : Option Nat} {start : Analysis}
    (hstart : Analysis.start model output limit = .ok start) (xs : List Call) {inputs : Table Tensor} {s : Session}
    (hs : Session.start (start.afterCalls xs) inputs = .ok s) {z : StreamNode} {p q : Input} {k l : Nat}
    (hz : z ∈ s.plan) (hop : z.node.op = .add) (hinputs : z.node.inputs = [p, q])
    (haxes : z.inputAxes = [some k, some l]) (pushes : List (String × Tensor)) :
    let h := s.history pushes
    (∀ d ∈ h, Sums d p.producer q.producer z.index) ∧
      ((chunks h z.index).length = min (chunks h p.producer).length (chunks h q.producer).length ↔
        (∀ d ∈ h, (delivered d p.producer).isSome → (delivered d q.producer).isSome) ∨
          ∀ d ∈ h, (delivered d q.producer).isSome → (delivered d p.producer).isSome) ∧
      ((∀ d ∈ h, (delivered d p.producer).isSome = (delivered d q.producer).isSome) →
        (chunks h p.producer).length = (chunks h q.producer).length ∧
          List.Forall₂ (fun (o : Tensor × Tensor) t => Operator.add.eval [o.1, o.2] = .ok t)
            ((chunks h p.producer).zip (chunks h q.producer)) (chunks h z.index)) ∧
      ∀ x y, x ≠ y → s.WaitsFor x p.producer → s.WaitsFor y q.producer → chunks h z.index = [] := by
  have hstarted : s.StartedBy (start.afterCalls xs) :=
    startedBy_of_start (afterCalls_wellFormed (start_spec hstart).1 xs) hs
  have hkeeps (s₁ : Session) (name : String) (chunk : Tensor) (hsame : SameTables s s₁) :
      SameTables s (s₁.push name chunk).2 := hsame.trans (push_sameTables s₁ name chunk)
  have hsums (s₁ : Session) (name : String) (chunk : Tensor) (hsame : SameTables s s₁) :
      Sums (s₁.deliveries name chunk) p.producer q.producer z.index :=
    (hstarted.of_sameTables hsame).sums (hsame.plan ▸ hz) hop hinputs haxes name chunk
  have hall : ∀ d ∈ s.history pushes, Sums d p.producer q.producer z.index :=
    forall_history hkeeps hsums (.refl s)
  refine ⟨hall, length_chunks_eq_min_iff hall, chunks_sums hall, fun x y hxy hp hq => ?_⟩
  have hnone : ∀ d ∈ s.history pushes, delivered d z.index = none :=
    forall_history hkeeps (fun s₁ name chunk hsame => (hstarted.of_sameTables hsame).sums_none
      (hsums s₁ name chunk hsame) hxy (hsame.waitsFor hp) (hsame.waitsFor hq)) (.refl s)
  exact List.filterMap_eq_nil_iff.2 hnone

/-- An input and its positive part always deliver together, so their sum answers every
push; here two, with a push into no input of the model between them. -/
theorem fork_sums : ∃ a s h, start (fork streamedList) 2 none = .ok a ∧
    Session.start (a.afterCalls [.act .run]) [] = .ok s ∧
    s.history [("x", singleton 1), ("z", singleton 5), ("x", singleton 2)] = h ∧
    (chunks h 2).length = 2 ∧ (chunks h 0).length = (chunks h 1).length ∧
    List.Forall₂ (fun (o : Tensor × Tensor) t => Operator.add.eval [o.1, o.2] = .ok t)
      ((chunks h 0).zip (chunks h 1)) (chunks h 2) := by
  obtain ⟨a, s, z, k, l, d, d', hstart, hs, hz, hop, hindex, hinputs, haxes, hh, hlen, hd, hd'⟩ :
      ∃ a s z k l d d', start (fork streamedList) 2 none = .ok a ∧
        Session.start (a.afterCalls [.act .run]) [] = .ok s ∧ s.plan[2]? = some z ∧ z.node.op = .add ∧
        (z.index : Int) = 2 ∧ z.node.inputs = [⟨0, none⟩, ⟨1, none⟩] ∧ z.inputAxes = [some k, some l] ∧
        s.history [("x", singleton 1), ("z", singleton 5), ("x", singleton 2)] = [d, [], d'] ∧
        (chunks [d, [], d'] 2).length = 2 ∧ (delivered d 0).isSome = (delivered d 1).isSome ∧
        (delivered d' 0).isSome = (delivered d' 1).isSome :=
    ⟨_, _, _, _, _, _, _, rfl, rfl, rfl, rfl, rfl, rfl, rfl, rfl, rfl, rfl, rfl⟩
  have hsums := (sums_delivered hstart _ hs (List.mem_of_getElem? hz) hop hinputs haxes
    [("x", singleton 1), ("z", singleton 5), ("x", singleton 2)]).2.2.1
  rw [hh, hindex] at hsums
  refine ⟨a, s, _, hstart, hs, hh, hlen, hsums fun e he => ?_⟩
  simp only [List.mem_cons, List.not_mem_nil, or_false] at he
  rcases he with rfl | rfl | rfl
  · exact hd
  · rfl
  · exact hd'

/-- A chunk of each of two inputs is pushed; both pushes succeed, and the sum of the
inputs, which is the output, has delivered nothing. -/
theorem merge_lost : ∃ a s h, start merge 2 none = .ok a ∧
    Session.start (a.afterCalls [.act .run]) [] = .ok s ∧
    (s.push "x" (singleton 1)).1 = .ok none ∧
    ((s.push "x" (singleton 1)).2.push "y" (singleton 2)).1 = .ok none ∧
    s.history [("x", singleton 1), ("y", singleton 2)] = h ∧
    chunks h 0 = [singleton 1] ∧ chunks h 1 = [singleton 2] ∧ chunks h 2 = [] ∧
    (chunks h 2).length ≠ min (chunks h 0).length (chunks h 1).length :=
  ⟨_, _, _, rfl, rfl, rfl, rfl, rfl, rfl, rfl, rfl, by decide⟩

end Analysis

end EdgeFacts
