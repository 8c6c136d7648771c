/-
# The broadcasting of shape facts is exact where it can be

Lists of extents broadcast as the shapes of tensors do, where the mark of the
streamed axis counts as an extent that equals itself alone: aligned at their last
ends, equal extents stay and 1 gives way, and extents that are missing count as 1
(`Extent.Broadcasts`). For numbers that is the broadcasting of tensors
(`Extent.broadcasts_count`).

Where two shapes are determined, their facts broadcast exactly if they do, to the
fact of the same list (`broadcastShapes_ofList`). What less determined facts say
follows by monotonicity: whatever lists they allow, the result allows the list
that these broadcast to (`broadcastShapes_exact`).

Key definitions: `Extent.broadcast?`, `Extent.Aligned`, `Extent.Broadcasts`,
`ShapeFact.Determined`.
Key theorems: `Extent.broadcasts_count`, `broadcastShapes_ofList`, `broadcastShapes_exact`.
-/
import EdgeFacts.Proofs.Intersection
import EdgeFacts.Proofs.Monotone
import EdgeFacts.Proofs.StreamShape

namespace EdgeFacts

/-! ### Lists of extents -/

namespace Extent

/-- The extent of two aligned axes: equal extents stay, and 1 gives way. -/
def broadcast? (x y : Extent) : Option Extent :=
  if x = y then some x else if x = count 1 then some y else if y = count 1 then some x else none

/-- Whether extents broadcast to others one by one; those behind the end of a list
count as 1. -/
structure Aligned (xs ys zs : List Extent) : Prop where
  length : zs.length = max xs.length ys.length
  extent : ∀ j, broadcast? (xs.getD j (count 1)) (ys.getD j (count 1)) = some (zs.getD j (count 1))

/-- Whether two lists of extents broadcast to a third, aligned at their last axes. -/
def Broadcasts (xs ys zs : List Extent) : Prop := Aligned xs.reverse ys.reverse zs.reverse

theorem broadcast?_comm (x y : Extent) : broadcast? x y = broadcast? y x := by
  grind [broadcast?]

theorem broadcast?_one (y : Extent) : broadcast? (count 1) y = some y := by
  by_cases h : count 1 = y <;> simp [broadcast?, h]

theorem broadcast?_count (m n : Nat) : broadcast? (count m) (count n) = (broadcastExtent? m n).map count := by
  simp only [broadcast?, broadcastExtent?, count.injEq]
  split
  · rfl
  split
  · rfl
  split <;> rfl

namespace Aligned

theorem comm {xs ys zs : List Extent} (h : Aligned xs ys zs) : Aligned ys xs zs :=
  ⟨h.length.trans (Nat.max_comm _ _), fun j => (broadcast?_comm _ _).trans (h.extent j)⟩

theorem nil_left_iff {ys zs : List Extent} : Aligned [] ys zs ↔ zs = ys := by
  constructor
  · intro h
    have hlength : zs.length = ys.length := by simpa using h.length
    refine List.ext_getElem hlength fun j hz hy => ?_
    have hj := h.extent j
    simp only [List.getD_nil, broadcast?_one, Option.some.injEq] at hj
    simpa [List.getD_eq_getElem?_getD, hz, hy] using hj.symm
  · rintro rfl
    exact ⟨by simp, fun j => by simp [broadcast?_one]⟩

theorem nil_right_iff {xs zs : List Extent} : Aligned xs [] zs ↔ zs = xs :=
  ⟨fun h => nil_left_iff.1 h.comm, fun h => (nil_left_iff.2 h).comm⟩

theorem cons_iff {x y : Extent} {xs ys zs : List Extent} : Aligned (x :: xs) (y :: ys) zs ↔
    ∃ z rest, zs = z :: rest ∧ broadcast? x y = some z ∧ Aligned xs ys rest := by
  constructor
  · intro h
    cases zs with
    | nil => exact absurd h.length (by simp)
    | cons z rest =>
      refine ⟨z, rest, rfl, h.extent 0, ?_, fun j => h.extent (j + 1)⟩
      have hlength := h.length
      simp only [List.length_cons] at hlength
      omega
  · rintro ⟨z, rest, rfl, hz, hrest⟩
    refine ⟨?_, fun j => ?_⟩
    · simp only [List.length_cons, hrest.length]
      omega
    · cases j with
      | zero => exact hz
      | succ j => exact hrest.extent j

/-- The shapes of tensors, the last axis first, are aligned with what they broadcast to. -/
theorem count_iff : ∀ {xs ys zs : List Nat},
    Aligned (xs.map count) (ys.map count) (zs.map count) ↔ broadcastReversed? xs ys = some zs
  | [], ys, zs => by
    rw [List.map_nil, nil_left_iff, List.map_inj_right fun _ _ => count.inj, broadcastReversed?,
      Option.some.injEq]
    exact eq_comm
  | x :: xs, [], zs => by
    rw [List.map_nil, nil_right_iff, List.map_inj_right fun _ _ => count.inj, broadcastReversed?,
      Option.some.injEq]
    · exact eq_comm
    · simp
  | x :: xs, y :: ys, zs => by
    rw [List.map_cons, List.map_cons, cons_iff, broadcastReversed?, broadcast?_count]
    constructor
    · rintro ⟨z, rest, hz, hbroadcast, hrest⟩
      obtain ⟨n, ns, rfl, rfl, rfl⟩ := List.map_eq_cons_iff.1 hz
      obtain ⟨m, hm, hmn⟩ := Option.map_eq_some_iff.1 hbroadcast
      simp only [hm, count_iff.1 hrest, count.inj hmn]
    · intro h
      split at h
      · rename_i n rest hn hrest
        cases h
        exact ⟨count n, rest.map count, rfl, by rw [hn]; rfl, count_iff.2 hrest⟩
      · cases h

end Aligned

/-- Lists of numbers broadcast as the shapes of tensors do. -/
theorem broadcasts_count {xs ys zs : List Nat} :
    Broadcasts (xs.map count) (ys.map count) (zs.map count) ↔ broadcastExtents xs ys = some zs := by
  rw [Broadcasts, ← List.map_reverse, ← List.map_reverse, ← List.map_reverse, Aligned.count_iff, broadcastExtents,
    Option.map_eq_some_iff]
  constructor
  · exact fun h => ⟨_, h, List.reverse_reverse zs⟩
  · rintro ⟨rs, hrs, rfl⟩
    rwa [List.reverse_reverse]

end Extent

/-! ### Determined shapes -/

/-- Facts about determined dimensions broadcast exactly if the extents do. -/
theorem broadcastDim_fact {x y : Extent} {d : DimFact} :
    broadcastDim x.fact y.fact = .ok d ↔ ∃ z, Extent.broadcast? x y = some z ∧ d = z.fact := by
  cases x <;> cases y <;> grind [broadcastDim, Extent.broadcast?, Extent.fact]

theorem broadcastDims_fact : ∀ {xs ys : List Extent} {ds : List DimFact},
    broadcastDims (xs.map Extent.fact) (ys.map Extent.fact) = .ok ds ↔
      ∃ zs, Extent.Aligned xs ys zs ∧ ds = zs.map Extent.fact
  | [], ys, ds => by
    simp only [List.map_nil, broadcastDims, Except.ok.injEq, Extent.Aligned.nil_left_iff, exists_eq_left]
    exact eq_comm
  | x :: xs, [], ds => by
    simp only [List.map_cons, List.map_nil, broadcastDims, Except.ok.injEq, Extent.Aligned.nil_right_iff,
      exists_eq_left]
    exact eq_comm
  | x :: xs, y :: ys, ds => by
    simp only [List.map_cons, broadcastDims, bind_eq_ok_iff, pure_eq_ok, Except.ok.injEq, broadcastDim_fact,
      broadcastDims_fact, Extent.Aligned.cons_iff]
    constructor
    · rintro ⟨_, ⟨z, hz, rfl⟩, _, ⟨zs, hzs, rfl⟩, rfl⟩
      exact ⟨z :: zs, ⟨z, zs, rfl, hz, hzs⟩, rfl⟩
    · rintro ⟨_, ⟨z, zs, rfl, hz, hzs⟩, rfl⟩
      exact ⟨_, ⟨z, hz, rfl⟩, _, ⟨zs, hzs, rfl⟩, rfl⟩

/-- **Determined shapes broadcast as their extents do.** -/
theorem broadcastShapes_ofList {xs ys : List Extent} {s : ShapeFact} :
    broadcastShapes (.ofList xs) (.ofList ys) = .ok s ↔ ∃ zs, Extent.Broadcasts xs ys zs ∧ s = .ofList zs := by
  simp only [broadcastShapes, ShapeFact.ofList, ShapeFact.closed, Bool.or_self, Bool.false_eq_true, if_false,
    ← List.map_reverse, bind_eq_ok_iff, pure_eq_ok, Except.ok.injEq, broadcastDims_fact, Extent.Broadcasts]
  constructor
  · rintro ⟨_, ⟨zs, hzs, rfl⟩, rfl⟩
    exact ⟨zs.reverse, by rwa [List.reverse_reverse], by rw [List.map_reverse]⟩
  · rintro ⟨zs, hzs, rfl⟩
    exact ⟨_, ⟨_, hzs, rfl⟩, by rw [List.map_reverse, List.reverse_reverse]⟩

namespace ShapeFact

/-- Whether a shape is closed and every dimension known or streamed. -/
structure Determined (s : ShapeFact) : Prop where
  closed : s.isOpen = false
  dims : ∀ d ∈ s.dims, d.isDetermined = true

theorem Determined.exists_eq_ofList {s : ShapeFact} (h : s.Determined) : ∃ xs, s = ofList xs := by
  refine ⟨s.dims.map Extent.ofDim, ?_⟩
  have hdims : s.dims.map (Extent.fact ∘ Extent.ofDim) = s.dims := by
    refine (List.map_congr_left fun d hd => ?_).trans (List.map_id _)
    have hd := h.dims d hd
    cases d
    · cases hd
    · rfl
    · rfl
  obtain ⟨dims, isOpen⟩ := s
  obtain rfl : isOpen = false := h.closed
  rw [ofList, List.map_map, hdims]
  rfl

end ShapeFact

/-- **The broadcasting of shapes is symmetric, sound and, for determined shapes, exact.** Either
order of the two shapes is refused, or both have one result. Whatever lists of extents the shapes
allow that broadcast, the result allows what they broadcast to. Two determined shapes have a
result exactly if they broadcast, and it is the determined shape that they broadcast to. -/
theorem broadcastShapes_exact (a b : ShapeFact) :
    ((∃ s, broadcastShapes a b = .ok s ∧ broadcastShapes b a = .ok s) ∨
      ∃ e f, broadcastShapes a b = .error e ∧ broadcastShapes b a = .error f) ∧
    (∀ xs ys zs, a.Allows xs → b.Allows ys → Extent.Broadcasts xs ys zs →
      ∃ s, broadcastShapes a b = .ok s ∧ s.Allows zs) ∧
    (a.Determined → b.Determined → ∀ s, broadcastShapes a b = .ok s ↔
      ∃ xs ys zs, a = .ofList xs ∧ b = .ofList ys ∧ Extent.Broadcasts xs ys zs ∧ s = .ofList zs) := by
  refine ⟨?_, fun xs ys zs hx hy hz => ?_, fun ha hb s => ⟨fun h => ?_, ?_⟩⟩
  · cases hab : broadcastShapes a b with
    | ok s => exact .inl ⟨s, rfl, broadcastShapes_comm hab⟩
    | error e =>
      cases hba : broadcastShapes b a with
      | ok s => cases hab.symm.trans (broadcastShapes_comm hba)
      | error f => exact .inr ⟨e, f, rfl, rfl⟩
  · obtain ⟨s, hs, hle⟩ := broadcastShapes_mono (ShapeFact.allows_iff_refines.1 hx)
      (ShapeFact.allows_iff_refines.1 hy) (broadcastShapes_ofList.2 ⟨zs, hz, rfl⟩)
    exact ⟨s, hs, ShapeFact.allows_iff_refines.2 hle⟩
  · obtain ⟨xs, rfl⟩ := ha.exists_eq_ofList
    obtain ⟨ys, rfl⟩ := hb.exists_eq_ofList
    obtain ⟨zs, hz, hs⟩ := broadcastShapes_ofList.1 h
    exact ⟨xs, ys, zs, rfl, rfl, hz, hs⟩
  · rintro ⟨xs, ys, zs, rfl, rfl, hz, hs⟩
    exact broadcastShapes_ofList.2 ⟨zs, hz, hs⟩

/-- A streamed batch of unknown size and a column of three: where the batch has size 3 they broadcast,
and what is inferred allows that; with a bias of one number the batch of three stays as it is. -/
theorem batch_broadcasts :
    (∃ s, broadcastShapes (.closed [.any, .streamed]) (.closed [.known 3, .known 1]) = .ok s ∧
      s.Allows [.count 3, .streamed]) ∧
    broadcastShapes (.closed [.known 3, .streamed]) (.closed [.known 1]) = .ok (.closed [.known 3, .streamed]) := by
  constructor
  · obtain ⟨-, hsound, -⟩ := broadcastShapes_exact (.closed [.any, .streamed]) (.closed [.known 3, .known 1])
    refine hsound [.count 3, .streamed] [.count 3, .count 1] _ ⟨?_, fun _ => rfl⟩ ⟨?_, fun _ => rfl⟩
      ⟨rfl, fun | 0 => rfl | 1 => rfl | _ + 2 => rfl⟩
    · exact .cons trivial (.cons rfl .nil)
    · exact .cons rfl (.cons rfl .nil)
  · obtain ⟨-, -, hexact⟩ := broadcastShapes_exact (.closed [.known 3, .streamed]) (.closed [.known 1])
    exact (hexact ⟨rfl, by decide⟩ ⟨rfl, by decide⟩ _).2
      ⟨[.count 3, .streamed], [.count 1], [.count 3, .streamed], rfl, rfl,
        ⟨rfl, fun | 0 => rfl | 1 => rfl | _ + 2 => rfl⟩, rfl⟩

end EdgeFacts
