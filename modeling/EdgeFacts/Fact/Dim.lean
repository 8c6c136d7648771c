/-
# Facts about a dimension

What is known about one dimension of a tensor: nothing, that it is the axis
along which the tensor is streamed, or its extent. Two facts meet in the one
that says what both say (`DimFact.meet?`), if they do not contradict each other.

Key definitions: `DimFact`, `DimFact.meet?`, `DimFact.text`.
Key theorems: `DimFact.meet?_comm`, `DimFact.meet?_self`, `DimFact.meet?_any`.
-/

namespace EdgeFacts

/-- What is known about one dimension. -/
inductive DimFact where
  | any
  | streamed
  | known (n : Nat)
deriving DecidableEq, Repr, Inhabited

namespace DimFact

/-- The fact that says what both facts say. -/
def meet? : DimFact → DimFact → Option DimFact
  | a, any => some a
  | any, b => some b
  | a, b => if a = b then some a else none

theorem meet?_any (a : DimFact) : a.meet? any = some a := by cases a <;> rfl

theorem any_meet? (a : DimFact) : any.meet? a = some a := by cases a <;> rfl

theorem meet?_self (a : DimFact) : a.meet? a = some a := by cases a <;> simp [meet?]

theorem meet?_comm (a b : DimFact) : a.meet? b = b.meet? a := by
  cases a <;> cases b <;> grind [meet?]

/-- The extent, if it is known. -/
def extent? : DimFact → Option Nat
  | known n => some n
  | _ => none

/-- Whether nothing more can be learnt; the extent of a streamed axis never is. -/
def isDetermined (a : DimFact) : Bool := a ≠ any

/-- The dimension in the notation of shapes. Extents are written however many digits they
have: only reading has a bound (`Text.maxDigits`), and one on writing is left out. -/
def text : DimFact → String
  | any => "_"
  | streamed => "S"
  | known n => toString n

end DimFact

end EdgeFacts
