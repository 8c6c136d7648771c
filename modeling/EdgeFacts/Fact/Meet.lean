/-
# Meets that say why they fail

The meets of facts with the clash that makes them fail: the first one, where
several facts contradict each other. Dimensions come before ranks, and of a
tensor fact the datatype comes before the shape and the shape before the value.

Key definitions: `DimFact.meet`, `ShapeFact.meet`, `TensorFact.meet`, `meetAll`.
Key theorems: `TensorFact.meet_eq_ok_iff`.
-/
import EdgeFacts.Failure.Basic

namespace EdgeFacts

/-- A result, or the failure in its place. -/
def orFail {α : Type} (failure : Failure) : Option α → Except Failure α
  | some a => .ok a
  | none => .error failure

theorem orFail_eq_ok_iff {α : Type} {failure : Failure} {o : Option α} {a : α} :
    orFail failure o = .ok a ↔ o = some a := by
  cases o <;> simp [orFail]

/-- The meet of two dimensions. -/
def DimFact.meet (a b : DimFact) : Except Failure DimFact :=
  orFail (.because (.clash (.dims a b))) (a.meet? b)

namespace ShapeFact

/-- Why two shapes clash: at the first dimensions that do, or by their ranks. -/
def clash (a b : ShapeFact) : Failure :=
  match (a.dims.zip b.dims).find? fun p => (p.1.meet? p.2).isNone with
  | some p => .analysis (.clash (.dims p.1 p.2)) [.meetingShapes a b]
  | none => .because (.clash (.ranks a b))

/-- The meet of two shapes. -/
def meet (a b : ShapeFact) : Except Failure ShapeFact := orFail (a.clash b) (a.meet? b)

end ShapeFact

/-- The meet of two datatype facts. -/
def meetDType (a b : Option DType) : Except Failure (Option DType) :=
  match a, b with
  | some d, some e => if d = e then .ok a else .error (.because (.clash (.dtypes d e)))
  | some _, none => .ok a
  | none, b => .ok b

/-- The meet of two value facts. -/
def meetValue (a b : Option Tensor) : Except Failure (Option Tensor) :=
  match a, b with
  | some t, some u => if t.same u then .ok a else .error (.because (.clash (.values t u)))
  | some _, none => .ok a
  | none, b => .ok b

/-- The meet of two facts about an untyped value. -/
def meetLiteral (a b : Option Literal) : Except Failure (Option Literal) :=
  match a, b with
  | some x, some y => if x.same y then .ok a else .error (.because (.clash (.literals x y)))
  | some _, none => .ok a
  | none, b => .ok b

namespace TensorFact

/-- The meet of two tensor facts. -/
def meet (a b : TensorFact) : Except Failure TensorFact := do
  let dtype ← meetDType a.dtype b.dtype
  let shape ← a.shape.meet b.shape
  let value ← meetValue a.value b.value
  return ⟨dtype, shape, value⟩

/-- The meet of a list of facts, from the left. -/
def meetAll (start : TensorFact) (facts : List TensorFact) : Except Failure TensorFact :=
  facts.foldlM TensorFact.meet start

theorem meetDType_eq_ok_iff {a b c : Option DType} :
    meetDType a b = .ok c ↔ meetExact? (fun d e => decide (d = e)) a b = some c := by
  cases a <;> cases b <;> simp only [meetDType, meetExact?] <;> grind

theorem meetValue_eq_ok_iff {a b c : Option Tensor} :
    meetValue a b = .ok c ↔ meetExact? Tensor.same a b = some c := by
  cases a <;> cases b <;> simp only [meetValue, meetExact?] <;> grind

/-- The meet that says why it fails has the results of the partial one. -/
theorem meet_eq_ok_iff {a b c : TensorFact} : a.meet b = .ok c ↔ a.meet? b = some c := by
  simp only [meet, meet?, bind, Except.bind]
  cases hd : meetDType a.dtype b.dtype with
  | error e =>
    have : meetExact? (fun d e => decide (d = e)) a.dtype b.dtype = none := by
      cases h : meetExact? (fun d e => decide (d = e)) a.dtype b.dtype with
      | none => rfl
      | some c => rw [meetDType_eq_ok_iff.2 h] at hd; cases hd
    simp [this]
  | ok dtype =>
    rw [meetDType_eq_ok_iff.1 hd]
    cases hs : a.shape.meet? b.shape with
    | none => simp [ShapeFact.meet, hs, orFail]
    | some shape =>
      simp only [ShapeFact.meet, hs, orFail]
      cases hv : meetValue a.value b.value with
      | error e =>
        have : meetExact? Tensor.same a.value b.value = none := by
          cases h : meetExact? Tensor.same a.value b.value with
          | none => rfl
          | some c => rw [meetValue_eq_ok_iff.2 h] at hv; cases hv
        simp [this]
      | ok value =>
        rw [meetValue_eq_ok_iff.1 hv]
        simp [pure, Except.pure]

end TensorFact

end EdgeFacts
