/-
# The meet of facts is the intersection of what they allow

A shape fact allows lists of extents, each a number or the mark of the streamed
axis; a tensor fact describes tensors with a datatype, such a list and, where it
is at hand, a value. A single list or tensor is itself a fact, one from which
nothing more can be learnt, and a fact allows it exactly if it refines the fact.
So the meet of two facts, as their greatest lower bound, exists exactly if both
have something in common, and it allows exactly what they have in common
(`IsMeet.exact`, `meet_exact`).

Key definitions: `ShapeFact.Allows`, `Instance`, `TensorFact.Describes`,
`TensorFact.Coherent`.
Key theorems: `ShapeFact.allows_iff_refines`, `TensorFact.describes_iff_refines`,
`meet_exact`.
-/
import EdgeFacts.Proofs.Sound

namespace EdgeFacts

open Analysis (integerPair)

/-- A meet is exact for points, among them one below the meet: it exists where a
point is below both arguments, and is above exactly those points. -/
theorem IsMeet.exact {α β : Type} {le : α → α → Prop} {meet : α → α → Except Failure α}
    (hm : IsMeet le meet) (point : β → α) {a b : α}
    (hpoint : ∀ c, meet a b = .ok c → ∃ p, le (point p) c) :
    ((∃ c, meet a b = .ok c) ↔ ∃ p, le (point p) a ∧ le (point p) b) ∧
      ∀ c, meet a b = .ok c → ∀ p, le (point p) c ↔ le (point p) a ∧ le (point p) b := by
  have above {c : α} (hc : meet a b = .ok c) (p : β) :
      le (point p) c ↔ le (point p) a ∧ le (point p) b := by
    obtain ⟨hca, hcb⟩ := hm.lower hc
    refine ⟨fun h => ⟨hm.trans h hca, hm.trans h hcb⟩, fun ⟨ha, hb⟩ => ?_⟩
    obtain ⟨c', hc', hp⟩ := hm.greatest ha hb
    cases hc.symm.trans hc'
    exact hp
  refine ⟨⟨fun ⟨c, hc⟩ => ?_, fun ⟨p, ha, hb⟩ => ?_⟩, fun c hc => above hc⟩
  · obtain ⟨p, hp⟩ := hpoint c hc
    exact ⟨p, (above hc p).1 hp⟩
  · obtain ⟨c, hc, -⟩ := hm.greatest ha hb
    exact ⟨c, hc⟩

/-! ### Extents and lists of extents -/

/-- What the extent of an axis can be: a number, or the mark of the streamed axis. -/
inductive Extent where
  | count (n : Nat)
  | streamed
deriving DecidableEq, Repr

namespace Extent

/-- The fact about a dimension that allows nothing else. -/
def fact : Extent → DimFact
  | count n => .known n
  | streamed => .streamed

/-- An extent that a fact about a dimension allows. -/
def ofDim : DimFact → Extent
  | .any => count 0
  | .streamed => streamed
  | .known n => count n

end Extent

/-- Whether a fact about a dimension allows an extent. -/
def DimFact.Allows : DimFact → Extent → Prop
  | any, _ => True
  | streamed, x => x = .streamed
  | known n, x => x = .count n

theorem DimFact.allows_iff_refines {d : DimFact} {x : Extent} : d.Allows x ↔ x.fact.Refines d := by
  cases d <;> cases x <;> simp [Allows, Refines, Extent.fact]

theorem DimFact.allows_ofDim (d : DimFact) : d.Allows (.ofDim d) := by
  cases d <;> simp [Allows, Extent.ofDim]

namespace ShapeFact

/-- Whether a fact about a shape allows a list of extents: the first ones suit
its dimensions, and there are no others if the shape is closed. -/
structure Allows (s : ShapeFact) (extents : List Extent) : Prop where
  dims : List.Forall₂ DimFact.Allows s.dims (extents.take s.dims.length)
  closed : s.isOpen = false → extents.length = s.dims.length

/-- The fact that allows one list of extents. -/
def ofList (extents : List Extent) : ShapeFact := .closed (extents.map Extent.fact)

theorem ofList_count (extents : List Nat) : ofList (extents.map .count) = ofExtents extents := by
  rw [ofList, List.map_map]
  rfl

theorem dimsRefine_fact_iff {p : Bool} {ds : List DimFact} {extents : List Extent} :
    DimsRefine p (extents.map Extent.fact) ds ↔
      List.Forall₂ DimFact.Allows ds (extents.take ds.length) ∧
        (p = false → extents.length = ds.length) := by
  induction ds generalizing extents with
  | nil => cases p <;> cases extents <;> simp [DimsRefine]
  | cons d ds ih =>
    cases extents with
    | nil => simp [DimsRefine]
    | cons n extents => simp [DimsRefine, DimFact.allows_iff_refines, ih, and_assoc]

theorem allows_iff_refines {s : ShapeFact} {extents : List Extent} :
    s.Allows extents ↔ (ofList extents).Refines s := by
  constructor
  · intro h
    exact ⟨fun _ => rfl, dimsRefine_fact_iff.2 ⟨h.dims, h.closed⟩⟩
  · intro h
    obtain ⟨hd, hc⟩ := dimsRefine_fact_iff.1 h.dims
    exact ⟨hd, hc⟩

/-- Every fact about a shape allows something. -/
theorem exists_allows (s : ShapeFact) : ∃ extents, s.Allows extents := by
  refine ⟨s.dims.map Extent.ofDim, ⟨?_, fun _ => by simp⟩⟩
  rw [List.take_of_length_le (by simp), List.forall₂_map_right_iff]
  exact List.forall₂_same.2 fun d _ => d.allows_ofDim

theorem allows_count_iff_admits {s : ShapeFact} {extents : List Nat} :
    s.Allows (extents.map .count) ↔ s.Admits extents := by
  rw [allows_iff_refines, admits_iff_refines, ofList_count]

end ShapeFact

/-! ### Typed lists of extents with a value -/

/-- A tensor as facts can tell it from others: its datatype, its extents and its
value, where there is one; the value then has that type and those extents. -/
structure Instance where
  dtype : DType
  extents : List Extent
  value : Option Tensor
  fits : ∀ t, value = some t → dtype = .elem t.elem ∧ extents = t.shape.map .count

namespace Instance

/-- A tensor with its value. -/
def ofTensor (t : Tensor) : Instance :=
  ⟨.elem t.elem, t.shape.map .count, some t, by rintro _ ⟨⟩; exact ⟨rfl, rfl⟩⟩

/-- The fact that describes nothing else. -/
def fact (x : Instance) : TensorFact := ⟨some x.dtype, .ofList x.extents, x.value⟩

theorem fact_ofTensor (t : Tensor) : (ofTensor t).fact = .ofTensor t := by
  simp only [fact, ofTensor, TensorFact.ofTensor, ShapeFact.ofList_count]

end Instance

namespace TensorFact

/-- Whether a fact describes a tensor: it agrees with what the fact knows of the
datatype, of the extents and of the value. -/
structure Describes (f : TensorFact) (x : Instance) : Prop where
  dtype : ∀ d, f.dtype = some d → x.dtype = d
  shape : f.shape.Allows x.extents
  value : ∀ v, f.value = some v → ∃ t, x.value = some t ∧ t.same v = true

/-- Whether a known value comes with its datatype and its shape. -/
def Coherent (f : TensorFact) : Prop :=
  ∀ t, f.value = some t → f.dtype = some (.elem t.elem) ∧ f.shape = .ofExtents t.shape

theorem describes_iff_refines {f : TensorFact} {x : Instance} : f.Describes x ↔ x.fact.Refines f := by
  constructor
  · intro h
    exact ⟨fun d hd => congrArg some (h.dtype d hd), ShapeFact.allows_iff_refines.1 h.shape, h.value⟩
  · intro h
    exact ⟨fun d hd => Option.some.inj (h.dtype d hd), ShapeFact.allows_iff_refines.2 h.shape, h.value⟩

theorem describes_ofTensor_iff_admits {f : TensorFact} {t : Tensor} :
    f.Describes (.ofTensor t) ↔ f.Admits t := by
  rw [describes_iff_refines, admits_iff_refines, Instance.fact_ofTensor]

theorem coherent_ofTensor (t : Tensor) : (ofTensor t).Coherent := by
  rintro _ ⟨⟩
  exact ⟨rfl, rfl⟩

theorem coherent_ofShape (dtype : Option DType) (shape : ShapeFact) : (ofShape dtype shape).Coherent :=
  fun _ h => nomatch h

/-- Every coherent fact describes something. -/
theorem Coherent.exists_describes {f : TensorFact} (h : f.Coherent) : ∃ x, f.Describes x := by
  cases hv : f.value with
  | some t =>
    obtain ⟨hdtype, hshape⟩ := h t hv
    refine ⟨.ofTensor t, describes_iff_refines.2 ?_⟩
    rw [Instance.fact_ofTensor]
    exact ⟨hdtype ▸ dtypeRefines_refl _, hshape ▸ .refl _, hv ▸ valueRefines_refl _⟩
  | none =>
    obtain ⟨extents, hextents⟩ := f.shape.exists_allows
    refine ⟨⟨f.dtype.getD .object, extents, none, fun _ h => nomatch h⟩, ?_, hextents, ?_⟩
    · intro d hd
      simp [hd]
    · intro v hv'
      cases hv.symm.trans hv'

/-- A fact that keeps the value of a coherent fact that it refines is coherent. -/
theorem Coherent.of_refines {f g : TensorFact} (h : f.Coherent) (hg : g.Refines f)
    (hv : g.value = f.value) : g.Coherent := by
  intro t ht
  obtain ⟨hdtype, hshape⟩ := h t (hv ▸ ht)
  exact ⟨hg.dtype _ hdtype, (hshape ▸ hg.shape).eq_ofExtents⟩

/-- The value of a meet is one of the two values. -/
theorem value_of_meetValue {a b c : Option Tensor} (h : meetValue a b = .ok c) : c = a ∨ c = b := by
  cases a <;> cases b <;> grind [meetValue]

theorem Coherent.meet {a b c : TensorFact} (ha : a.Coherent) (hb : b.Coherent) (h : a.meet b = .ok c) :
    c.Coherent := by
  obtain ⟨hca, hcb⟩ := isMeet.lower h
  rcases value_of_meetValue (meet_eq_ok h).2.2 with hv | hv
  · exact ha.of_refines hca hv
  · exact hb.of_refines hcb hv

end TensorFact

/-- **The meet of facts is exact intersection.** Two facts about a shape meet
exactly if both allow some list of extents, and then their meet allows exactly
the lists that both allow. Two coherent facts about a tensor meet exactly if both
describe some datatype, extents and value, and then their meet is coherent and
describes exactly what both describe. -/
theorem meet_exact :
    (∀ a b : ShapeFact,
      ((∃ c, a.meet b = .ok c) ↔ ∃ extents, a.Allows extents ∧ b.Allows extents) ∧
      ∀ c, a.meet b = .ok c → ∀ extents, c.Allows extents ↔ a.Allows extents ∧ b.Allows extents) ∧
    ∀ a b : TensorFact, a.Coherent → b.Coherent →
      ((∃ c, a.meet b = .ok c) ↔ ∃ x, a.Describes x ∧ b.Describes x) ∧
      ∀ c, a.meet b = .ok c → c.Coherent ∧ ∀ x, c.Describes x ↔ a.Describes x ∧ b.Describes x := by
  refine ⟨fun a b => ?_, fun a b ha hb => ?_⟩
  · simp only [ShapeFact.allows_iff_refines]
    refine ShapeFact.isMeet.exact ShapeFact.ofList fun c _ => ?_
    obtain ⟨extents, h⟩ := c.exists_allows
    exact ⟨extents, ShapeFact.allows_iff_refines.1 h⟩
  · simp only [TensorFact.describes_iff_refines]
    obtain ⟨hexists, habove⟩ := TensorFact.isMeet.exact Instance.fact (a := a) (b := b) fun c hc => by
      obtain ⟨x, hx⟩ := (ha.meet hb hc).exists_describes
      exact ⟨x, TensorFact.describes_iff_refines.1 hx⟩
    exact ⟨hexists, fun c hc => ⟨ha.meet hb hc, habove c hc⟩⟩

/-- A pair of integers meets what is known of all pairs in a coherent fact that
describes that pair. -/
theorem integerPair_meet_exact : ∃ c,
    (TensorFact.ofTensor (integerPair 3 (-1))).meet (.ofShape none (.starting [.any])) = .ok c ∧
      c.Coherent ∧ c.Describes (.ofTensor (integerPair 3 (-1))) := by
  obtain ⟨-, htensor⟩ := meet_exact
  obtain ⟨hexists, habove⟩ := htensor _ _ (TensorFact.coherent_ofTensor (integerPair 3 (-1)))
    (TensorFact.coherent_ofShape none (.starting [.any]))
  have hself : (TensorFact.ofTensor (integerPair 3 (-1))).Describes (.ofTensor (integerPair 3 (-1))) := by
    rw [TensorFact.describes_iff_refines, Instance.fact_ofTensor]
    exact .refl _
  have hpair : (TensorFact.ofShape none (.starting [.any])).Describes (.ofTensor (integerPair 3 (-1))) :=
    ⟨fun _ h => (nomatch h), ⟨.cons trivial .nil, fun h => (nomatch h)⟩, fun _ h => (nomatch h)⟩
  obtain ⟨c, hc⟩ := hexists.2 ⟨_, hself, hpair⟩
  obtain ⟨hcoherent, hdescribes⟩ := habove c hc
  exact ⟨c, hc, hcoherent, (hdescribes _).2 ⟨hself, hpair⟩⟩

end EdgeFacts
