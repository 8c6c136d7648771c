/-
# The order of facts

A fact refines another if it says at least as much. The meet of two facts, when
it exists, is their greatest lower bound in this order, and it exists as soon as
there is a lower bound at all (`TensorFact.isMeet`). So meets are monotone: what
two facts say together, two refined facts say as well, and where the coarser
facts clash the finer ones do (`IsMeet.mono`). Two facts say the same exactly if
each refines the other.

Key definitions: `DimFact.Refines`, `ShapeFact.Refines`, `TensorFact.Refines`, `IsMeet`.
Key theorems: `IsMeet.mono`, `TensorFact.isMeet`, `TensorFact.same_iff_refines`.
-/
import Mathlib.Data.List.Forall2
import EdgeFacts.Fact.Meet

namespace EdgeFacts

/-- An operation that gives greatest lower bounds, and fails only where there is
no lower bound. -/
structure IsMeet {α : Type} (le : α → α → Prop) (meet : α → α → Except Failure α) : Prop where
  trans : ∀ {a b c}, le a b → le b c → le a c
  lower : ∀ {a b c}, meet a b = .ok c → le c a ∧ le c b
  greatest : ∀ {a b d}, le d a → le d b → ∃ c, meet a b = .ok c ∧ le d c

/-- A meet that exists below two arguments exists for them. -/
theorem IsMeet.mono {α : Type} {le : α → α → Prop} {meet : α → α → Except Failure α}
    (hm : IsMeet le meet) {a b a' b' c' : α} (ha : le a' a) (hb : le b' b)
    (h : meet a' b' = .ok c') : ∃ c, meet a b = .ok c ∧ le c' c := by
  obtain ⟨hca, hcb⟩ := hm.lower h
  exact hm.greatest (hm.trans hca ha) (hm.trans hcb hb)

/-! ### Dimensions -/

namespace DimFact

/-- Whether a fact about a dimension says at least what another says. -/
def Refines (a b : DimFact) : Prop := b = any ∨ a = b

theorem Refines.refl (a : DimFact) : a.Refines a := .inr rfl

theorem refines_any (a : DimFact) : a.Refines any := .inl rfl

theorem Refines.trans {a b c : DimFact} (h : a.Refines b) (k : b.Refines c) : a.Refines c := by
  rcases k with rfl | rfl
  · exact refines_any a
  · exact h

theorem Refines.antisymm {a b : DimFact} (h : a.Refines b) (k : b.Refines a) : a = b := by
  rcases h with rfl | rfl
  · rcases k with rfl | rfl <;> rfl
  · rfl

/-- Nothing but itself refines a fact from which nothing more can be learnt. -/
theorem Refines.eq_of_ne_any {a b : DimFact} (h : a.Refines b) (hb : b ≠ any) : a = b := by
  rcases h with rfl | rfl
  · exact absurd rfl hb
  · rfl

theorem meet?_eq_some {a b c : DimFact} (h : a.meet? b = some c) :
    c.Refines a ∧ c.Refines b := by
  cases a <;> cases b <;> grind [meet?, Refines]

theorem meet?_of_refines {a b d : DimFact} (ha : d.Refines a) (hb : d.Refines b) :
    ∃ c, a.meet? b = some c ∧ d.Refines c := by
  cases a <;> cases b <;> grind [meet?, Refines]

theorem isMeet : IsMeet Refines DimFact.meet where
  trans := Refines.trans
  lower h := meet?_eq_some (orFail_eq_ok_iff.1 h)
  greatest ha hb := by
    obtain ⟨c, hc, hd⟩ := meet?_of_refines ha hb
    exact ⟨c, orFail_eq_ok_iff.2 hc, hd⟩

end DimFact

/-! ### Shapes -/

namespace ShapeFact

/-- Whether dimensions say at least what others say, of which there may be more
if their list is open. -/
def DimsRefine (isOpen : Bool) : List DimFact → List DimFact → Prop
  | as, [] => isOpen = true ∨ as = []
  | [], _ :: _ => False
  | a :: as, b :: bs => a.Refines b ∧ DimsRefine isOpen as bs

/-- Whether a fact about a shape says at least what another says. -/
structure Refines (a b : ShapeFact) : Prop where
  closed : b.isOpen = false → a.isOpen = false
  dims : DimsRefine b.isOpen a.dims b.dims

theorem dimsRefine_refl (p : Bool) : ∀ as, DimsRefine p as as
  | [] => .inr rfl
  | a :: as => ⟨.refl a, dimsRefine_refl p as⟩

theorem DimsRefine.trans {p q : Bool} (hpq : q = false → p = false) :
    ∀ {as bs cs : List DimFact}, DimsRefine p as bs → DimsRefine q bs cs → DimsRefine q as cs
  | as, [], [], h, _ => by cases q <;> simp_all [DimsRefine]
  | as, b :: bs, [], _, k => by simp_all [DimsRefine]
  | [], [], c :: cs, _, k => k
  | _ :: _, [], _ :: _, _, k => k.elim
  | [], b :: bs, c :: cs, h, _ => h.elim
  | _ :: _, _ :: _, _ :: _, h, k => ⟨h.1.trans k.1, h.2.trans hpq k.2⟩

theorem DimsRefine.length_le {p : Bool} :
    ∀ {as bs : List DimFact}, DimsRefine p as bs → bs.length ≤ as.length
  | _, [], _ => Nat.zero_le _
  | [], _ :: _, h => h.elim
  | _ :: _, _ :: _, h => Nat.succ_le_succ h.2.length_le

theorem dimsRefine_false_iff {as bs : List DimFact} :
    DimsRefine false as bs ↔ List.Forall₂ DimFact.Refines as bs := by
  induction as generalizing bs with
  | nil => cases bs <;> simp [DimsRefine]
  | cons a as ih => cases bs <;> simp [DimsRefine, ih]

/-- Every dimension that is known of a shape is known of a refinement of it. -/
theorem DimsRefine.getD {p : Bool} : ∀ {as bs : List DimFact}, DimsRefine p as bs →
    ∀ k, (as.getD k .any).Refines (bs.getD k .any)
  | _, [], _, _ => DimFact.refines_any _
  | [], _ :: _, h, _ => h.elim
  | _ :: _, _ :: _, h, 0 => h.1
  | _ :: _, _ :: _, h, k + 1 => h.2.getD k

theorem DimsRefine.antisymm {p q : Bool} (hp : p = false → q = false) (hq : q = false → p = false) :
    ∀ {as bs : List DimFact}, DimsRefine q as bs → DimsRefine p bs as →
      (p = true → as.length = bs.length) → as = bs
  | [], [], _, _, _ => rfl
  | [], _ :: _, h, _, _ => h.elim
  | _ :: _, [], _, k, _ => k.elim
  | a :: as, b :: bs, h, k, hl => by
    rw [h.1.antisymm k.1, h.2.antisymm hp hq k.2 fun h => by simpa using hl h]

namespace Refines

theorem refl (a : ShapeFact) : a.Refines a := ⟨id, dimsRefine_refl _ _⟩

theorem trans {a b c : ShapeFact} (h : a.Refines b) (k : b.Refines c) : a.Refines c :=
  ⟨fun hc => h.closed (k.closed hc), h.dims.trans k.closed k.dims⟩

theorem antisymm {a b : ShapeFact} (h : a.Refines b) (k : b.Refines a) : a = b := by
  rcases a with ⟨as, p⟩
  rcases b with ⟨bs, q⟩
  have hlen := Nat.le_antisymm k.dims.length_le h.dims.length_le
  have hdims : as = bs := DimsRefine.antisymm k.closed h.closed h.dims k.dims fun _ => hlen
  have hopen : p = q := by
    have h1 := h.closed
    have h2 := k.closed
    cases p <;> cases q <;> simp_all
  rw [hdims, hopen]

/-- A refinement of a closed shape is closed, and its dimensions refine those. -/
theorem of_closed {a : ShapeFact} {bs : List DimFact} (h : a.Refines (ShapeFact.closed bs)) :
    a.isOpen = false ∧ List.Forall₂ DimFact.Refines a.dims bs :=
  ⟨h.closed rfl, dimsRefine_false_iff.1 h.dims⟩

/-- Nothing but itself refines a closed shape from which nothing more can be learnt. -/
theorem eq_of_ne_any {a : ShapeFact} {bs : List DimFact} (h : a.Refines (ShapeFact.closed bs))
    (hb : ∀ b ∈ bs, b ≠ .any) : a = ShapeFact.closed bs := by
  obtain ⟨hclosed, hdims⟩ := h.of_closed
  have heq : a.dims = bs := by
    refine List.ext_getElem hdims.length_eq fun j hj hj' => ?_
    exact (hdims.get hj hj').eq_of_ne_any (hb _ (List.getElem_mem hj'))
  obtain ⟨dims, isOpen⟩ := a
  cases hclosed
  cases heq
  rfl

/-- Nothing but itself refines a shape all of whose extents are known. -/
theorem eq_ofExtents {a : ShapeFact} {extents : List Nat} (h : a.Refines (ofExtents extents)) :
    a = ofExtents extents := by
  refine h.eq_of_ne_any fun b hb => ?_
  obtain ⟨n, -, rfl⟩ := List.mem_map.1 hb
  exact fun h => nomatch h

end Refines

theorem closed_refines_closed_iff {as bs : List DimFact} :
    (closed as).Refines (closed bs) ↔ List.Forall₂ DimFact.Refines as bs :=
  ⟨fun h => h.of_closed.2, fun h => ⟨fun _ => rfl, dimsRefine_false_iff.2 h⟩⟩

theorem refines_unknown (a : ShapeFact) : a.Refines unknown :=
  ⟨fun h => (Bool.noConfusion h : _), by simp [unknown, starting, DimsRefine]⟩

theorem meetDims?_lower {p q : Bool} : ∀ {as bs cs : List DimFact},
    meetDims? p q as bs = some cs → DimsRefine p cs as ∧ DimsRefine q cs bs
  | [], [], cs, h => by cases h; exact ⟨.inr rfl, .inr rfl⟩
  | a :: as, [], cs, h => by
    cases q with
    | true => cases h; exact ⟨dimsRefine_refl _ _, .inl rfl⟩
    | false => cases h
  | [], b :: bs, cs, h => by
    cases p with
    | true => cases h; exact ⟨.inl rfl, dimsRefine_refl _ _⟩
    | false => cases h
  | a :: as, b :: bs, cs, h => by
    simp only [meetDims?] at h
    split at h
    · rename_i d rest hd hrest
      cases h
      have hhead := DimFact.meet?_eq_some hd
      have htail := meetDims?_lower hrest
      exact ⟨⟨hhead.1, htail.1⟩, ⟨hhead.2, htail.2⟩⟩
    · cases h

theorem meetDims?_greatest {p q : Bool} : ∀ {as bs ds : List DimFact},
    DimsRefine p ds as → DimsRefine q ds bs →
      ∃ cs, meetDims? p q as bs = some cs ∧ DimsRefine (p && q) ds cs
  | [], [], ds, ha, hb => ⟨[], rfl, by simp_all [DimsRefine]; grind⟩
  | a :: as, [], [], ha, _ => ha.elim
  | a :: as, [], d :: ds, ha, hb => by
    have hq : q = true := by simpa [DimsRefine] using hb
    subst hq
    exact ⟨a :: as, rfl, by simpa using ha⟩
  | [], b :: bs, [], _, hb => hb.elim
  | [], b :: bs, d :: ds, ha, hb => by
    have hp : p = true := by simpa [DimsRefine] using ha
    subst hp
    exact ⟨b :: bs, rfl, by simpa using hb⟩
  | _ :: _, _ :: _, [], ha, _ => ha.elim
  | a :: as, b :: bs, d :: ds, ha, hb => by
    obtain ⟨c, hc, hdc⟩ := DimFact.meet?_of_refines ha.1 hb.1
    obtain ⟨cs, hcs, hdcs⟩ := meetDims?_greatest ha.2 hb.2
    exact ⟨c :: cs, by simp [meetDims?, hc, hcs], hdc, hdcs⟩

theorem isMeet : IsMeet Refines ShapeFact.meet where
  trans := Refines.trans
  lower h := by
    obtain ⟨cs, hcs, rfl⟩ := Option.map_eq_some_iff.1 (orFail_eq_ok_iff.1 h)
    obtain ⟨ha, hb⟩ := meetDims?_lower hcs
    exact ⟨⟨fun h => by simp [h], ha⟩, ⟨fun h => by simp [h], hb⟩⟩
  greatest ha hb := by
    obtain ⟨cs, hcs, hd⟩ := meetDims?_greatest ha.dims hb.dims
    refine ⟨_, orFail_eq_ok_iff.2 (Option.map_eq_some_iff.2 ⟨cs, hcs, rfl⟩), fun h => ?_, hd⟩
    rcases Bool.and_eq_false_iff.1 h with h | h
    · exact ha.closed h
    · exact hb.closed h

theorem meet_of_refines {a b : ShapeFact} (h : a.Refines b) : a.meet b = .ok a := by
  obtain ⟨c, hc, hac⟩ := isMeet.greatest (.refl a) h
  rw [hc, (isMeet.lower hc).1.antisymm hac]

end ShapeFact

/-! ### Tensors -/

/-- Whether a fact about a datatype says at least what another says. -/
def DTypeRefines (a b : Option DType) : Prop := ∀ d, b = some d → a = some d

/-- Whether a fact about a value says at least what another says. -/
def ValueRefines (a b : Option Tensor) : Prop :=
  ∀ v, b = some v → ∃ u, a = some u ∧ u.same v = true

theorem dtypeRefines_refl (a : Option DType) : DTypeRefines a a := fun _ h => h

theorem DTypeRefines.trans {a b c : Option DType} (h : DTypeRefines a b) (k : DTypeRefines b c) :
    DTypeRefines a c := fun d hd => h d (k d hd)

theorem dtypeRefines_none (a : Option DType) : DTypeRefines a none := fun _ h => nomatch h

theorem isMeet_dtype : IsMeet DTypeRefines meetDType where
  trans := DTypeRefines.trans
  lower := by
    intro a b c h
    cases a <;> cases b <;> grind [meetDType, DTypeRefines]
  greatest := by
    intro a b d ha hb
    cases a <;> cases b <;> grind [meetDType, DTypeRefines]

theorem meetDType_of_refines {a b : Option DType} (h : DTypeRefines a b) : meetDType a b = .ok a := by
  cases b with
  | none => cases a <;> rfl
  | some d => simp [h d rfl, meetDType]

theorem valueRefines_refl (a : Option Tensor) : ValueRefines a a :=
  fun v h => ⟨v, h, v.same_refl⟩

theorem ValueRefines.trans {a b c : Option Tensor} (h : ValueRefines a b) (k : ValueRefines b c) :
    ValueRefines a c := by
  intro v hv
  obtain ⟨u, hu, huv⟩ := k v hv
  obtain ⟨t, ht, htu⟩ := h u hu
  exact ⟨t, ht, Tensor.same_trans htu huv⟩

theorem valueRefines_none (a : Option Tensor) : ValueRefines a none := fun _ h => nomatch h

theorem isMeet_value : IsMeet ValueRefines meetValue where
  trans := ValueRefines.trans
  lower := by
    intro a b c h
    rcases a with _ | t
    · cases h
      exact ⟨valueRefines_none _, valueRefines_refl _⟩
    rcases b with _ | u
    · cases h
      exact ⟨valueRefines_refl _, valueRefines_none _⟩
    simp only [meetValue] at h
    split at h
    · rename_i hs
      cases h
      refine ⟨valueRefines_refl _, fun v hv => ?_⟩
      cases hv
      exact ⟨t, rfl, hs⟩
    · cases h
  greatest := by
    intro a b d ha hb
    rcases a with _ | t
    · exact ⟨b, rfl, hb⟩
    rcases b with _ | u
    · exact ⟨some t, rfl, ha⟩
    obtain ⟨x, hx, hxt⟩ := ha t rfl
    obtain ⟨y, hy, hyu⟩ := hb u rfl
    cases hx.symm.trans hy
    exact ⟨some t, by simp [meetValue, Tensor.same_trans (Tensor.same_symm hxt) hyu], ha⟩

theorem meetValue_of_refines {a b : Option Tensor} (h : ValueRefines a b) : meetValue a b = .ok a := by
  cases b with
  | none => cases a <;> rfl
  | some v =>
    obtain ⟨u, rfl, hu⟩ := h v rfl
    simp [meetValue, hu]

namespace TensorFact

/-- Whether a fact about a tensor says at least what another says. -/
structure Refines (a b : TensorFact) : Prop where
  dtype : DTypeRefines a.dtype b.dtype
  shape : a.shape.Refines b.shape
  value : ValueRefines a.value b.value

theorem Refines.refl (a : TensorFact) : a.Refines a :=
  ⟨dtypeRefines_refl _, .refl _, valueRefines_refl _⟩

theorem Refines.trans {a b c : TensorFact} (h : a.Refines b) (k : b.Refines c) : a.Refines c :=
  ⟨h.dtype.trans k.dtype, h.shape.trans k.shape, h.value.trans k.value⟩

theorem refines_unknown (a : TensorFact) : a.Refines unknown :=
  ⟨dtypeRefines_none _, ShapeFact.refines_unknown _, valueRefines_none _⟩

/-- The parts of a meet of tensor facts. -/
theorem meet_eq_ok {a b c : TensorFact} (h : a.meet b = .ok c) :
    meetDType a.dtype b.dtype = .ok c.dtype ∧ a.shape.meet b.shape = .ok c.shape ∧
      meetValue a.value b.value = .ok c.value := by
  simp only [meet, bind, Except.bind] at h
  cases hd : meetDType a.dtype b.dtype with
  | error e => simp [hd] at h
  | ok dtype =>
    cases hs : a.shape.meet b.shape with
    | error e => simp [hd, hs] at h
    | ok shape =>
      cases hv : meetValue a.value b.value with
      | error e => simp [hd, hs, hv] at h
      | ok value =>
        simp only [hd, hs, hv, pure, Except.pure, Except.ok.injEq] at h
        subst h
        exact ⟨rfl, rfl, rfl⟩

theorem isMeet : IsMeet Refines meet where
  trans := Refines.trans
  lower h := by
    obtain ⟨hd, hs, hv⟩ := meet_eq_ok h
    have dtype := isMeet_dtype.lower hd
    have shape := ShapeFact.isMeet.lower hs
    have value := isMeet_value.lower hv
    exact ⟨⟨dtype.1, shape.1, value.1⟩, ⟨dtype.2, shape.2, value.2⟩⟩
  greatest ha hb := by
    obtain ⟨dtype, hd, hdd⟩ := isMeet_dtype.greatest ha.dtype hb.dtype
    obtain ⟨shape, hs, hds⟩ := ShapeFact.isMeet.greatest ha.shape hb.shape
    obtain ⟨value, hv, hdv⟩ := isMeet_value.greatest ha.value hb.value
    exact ⟨⟨dtype, shape, value⟩, by simp [meet, hd, hs, hv, bind, Except.bind, pure, Except.pure],
      hdd, hds, hdv⟩

theorem same_iff_refines {a b : TensorFact} : a.same b = true ↔ a.Refines b ∧ b.Refines a := by
  constructor
  · intro h
    simp only [same, Bool.and_eq_true, decide_eq_true_eq] at h
    obtain ⟨⟨hd, hs⟩, hv⟩ := h
    have value : ValueRefines a.value b.value ∧ ValueRefines b.value a.value := by
      cases ha : a.value <;> cases hb : b.value <;> simp only [ha, hb, sameExact] at hv
      · exact ⟨valueRefines_refl _, valueRefines_refl _⟩
      · cases hv
      · cases hv
      · rename_i t u
        refine ⟨fun v h => ?_, fun v h => ?_⟩
        · cases h
          exact ⟨t, rfl, hv⟩
        · cases h
          exact ⟨u, rfl, Tensor.same_symm hv⟩
    refine ⟨⟨?_, ?_, value.1⟩, ⟨?_, ?_, value.2⟩⟩
    · rw [hd]; exact dtypeRefines_refl _
    · rw [hs]; exact .refl _
    · rw [hd]; exact dtypeRefines_refl _
    · rw [hs]; exact .refl _
  · rintro ⟨h, k⟩
    have hd : a.dtype = b.dtype := by
      cases ha : a.dtype with
      | none =>
        cases hb : b.dtype with
        | none => rfl
        | some d => exact absurd (h.dtype d hb) (by simp [ha])
      | some d => exact (k.dtype d ha).symm
    have hv : sameExact Tensor.same a.value b.value = true := by
      cases ha : a.value with
      | none =>
        cases hb : b.value with
        | none => rfl
        | some v => obtain ⟨u, hu, -⟩ := h.value v hb; rw [ha] at hu; cases hu
      | some t =>
        obtain ⟨v, hv, hvt⟩ := k.value t ha
        rw [hv]
        exact Tensor.same_symm hvt
    simp [same, hd, h.shape.antisymm k.shape, hv]

theorem Refines.withoutValue {a b : TensorFact} (h : a.Refines b) :
    a.withoutValue.Refines b.withoutValue :=
  ⟨h.dtype, h.shape, valueRefines_none _⟩

end TensorFact

end EdgeFacts
