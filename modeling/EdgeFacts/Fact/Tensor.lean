/-
# Facts about a tensor

What is known about the tensors that flow along an edge: their datatype, their
shape and their value. Each of the three is refined on its own. Facts are
compared by what they say: two known values are the same if they have one type,
one shape and the same elements (`TensorFact.same`).

Key definitions: `TensorFact`, `TensorFact.meet?`, `TensorFact.same`,
`TensorFact.ofTensor`, `TensorFact.text`.
Key theorems: `TensorFact.same_refl`, `TensorFact.meet?_unknown`.
-/
import EdgeFacts.Fact.Shape
import EdgeFacts.Literal.Basic
import EdgeFacts.Tensor.DType
import EdgeFacts.Tensor.Text

namespace EdgeFacts

/-- Meets two facts each of which says nothing or gives the one value. -/
def meetExact? {α : Type} (same : α → α → Bool) : Option α → Option α → Option (Option α)
  | a, none => some a
  | none, b => some b
  | some a, some b => if same a b then some (some a) else none

/-- Whether two such facts say the same. -/
def sameExact {α : Type} (same : α → α → Bool) : Option α → Option α → Bool
  | none, none => true
  | some a, some b => same a b
  | _, _ => false

/-- A datatype fact in notation. -/
def dtypeText : Option DType → String
  | none => "_"
  | some d => d.name

/-- A datatype fact as messages show it. -/
def dtypeFactText (d : Option DType) : String := "TypeFact(" ++ dtypeText d ++ ")"

/-- A value fact as messages show it. -/
def valueFactText (v : Option Tensor) : String :=
  "ValueFact(" ++ (match v with
    | none => "_"
    | some t => t.text) ++ ")"

/-- A fact about an untyped value as messages show it. -/
def literalFactText (v : Option Literal) : String :=
  "GenericFact(" ++ (match v with
    | none => "_"
    | some x => x.render) ++ ")"

/-- What is known about the tensors on an edge. -/
structure TensorFact where
  dtype : Option DType
  shape : ShapeFact
  value : Option Tensor
deriving DecidableEq, Repr

namespace TensorFact

/-- Nothing is known. -/
def unknown : TensorFact := ⟨none, .unknown, none⟩

instance : Inhabited TensorFact := ⟨unknown⟩

/-- A datatype and a shape without a value. -/
def ofShape (dtype : Option DType) (shape : ShapeFact) : TensorFact := ⟨dtype, shape, none⟩

/-- All there is to know about a tensor. -/
def ofTensor (t : Tensor) : TensorFact := ⟨some (.elem t.elem), .ofExtents t.shape, some t⟩

/-- The fact without what it says about the value. -/
def withoutValue (f : TensorFact) : TensorFact := { f with value := none }

/-- The fact that says what both facts say. -/
def meet? (a b : TensorFact) : Option TensorFact :=
  match meetExact? (fun d e => d = e) a.dtype b.dtype, a.shape.meet? b.shape,
      meetExact? Tensor.same a.value b.value with
  | some dtype, some shape, some value => some ⟨dtype, shape, value⟩
  | _, _, _ => none

/-- Whether two facts say the same. -/
def same (a b : TensorFact) : Bool :=
  a.dtype = b.dtype && a.shape = b.shape && sameExact Tensor.same a.value b.value

theorem same_refl (a : TensorFact) : a.same a = true := by
  rcases a with ⟨_, _, _ | v⟩ <;> simp [same, sameExact, Tensor.same_refl]

theorem meet?_unknown (a : TensorFact) : a.meet? unknown = some a := by
  rcases a with ⟨d, s, v⟩
  cases d <;> cases v <;> simp [meet?, unknown, meetExact?, ShapeFact.meet?_unknown]

/-- The fact in notation, with the value behind an equals sign. -/
def text (f : TensorFact) : String :=
  dtypeText f.dtype ++ f.shape.text ++ (match f.value with
    | none => ""
    | some t => " = " ++ t.text)

end TensorFact

end EdgeFacts
