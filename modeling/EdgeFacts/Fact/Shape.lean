/-
# Facts about a shape

A shape fact lists what is known about the first dimensions. If it is closed
these are all; if it is open, any number of further dimensions may follow.

Key definitions: `ShapeFact`, `ShapeFact.meet?`, `ShapeFact.text`.
Key theorems: `ShapeFact.meet?_comm`, `ShapeFact.meet?_self`, `ShapeFact.meet?_unknown`.
-/
import EdgeFacts.Fact.Dim

namespace EdgeFacts

/-- What is known about a shape: its first dimensions, and whether more may follow. -/
structure ShapeFact where
  dims : List DimFact
  isOpen : Bool
deriving DecidableEq, Repr, Inhabited

namespace ShapeFact

/-- The shapes with exactly these dimensions. -/
def closed (dims : List DimFact) : ShapeFact := ⟨dims, false⟩

/-- The shapes that start with these dimensions. -/
def starting (dims : List DimFact) : ShapeFact := ⟨dims, true⟩

/-- Nothing is known. -/
def unknown : ShapeFact := starting []

/-- The shapes of the given rank. -/
def ofRank (n : Nat) : ShapeFact := closed (List.replicate n .any)

/-- The shape with exactly these extents. -/
def ofExtents (extents : List Nat) : ShapeFact := closed (extents.map .known)

/-- The number of dimensions, if it is known. -/
def rank? (s : ShapeFact) : Option Nat := if s.isOpen then none else some s.dims.length

/-- The first streamed axis. -/
def streamedAxis? (s : ShapeFact) : Option Nat := s.dims.findIdx? (· = .streamed)

/-- The extents, if all are known. -/
def extents? (s : ShapeFact) : Option (List Nat) :=
  if s.isOpen then none else s.dims.mapM DimFact.extent?

/-- Meets dimensions one by one; dimensions beyond the end of the other list
stand if that list may go on. -/
def meetDims? (openA openB : Bool) : List DimFact → List DimFact → Option (List DimFact)
  | [], [] => some []
  | as@(_ :: _), [] => if openB then some as else none
  | [], bs@(_ :: _) => if openA then some bs else none
  | a :: as, b :: bs =>
    match a.meet? b, meetDims? openA openB as bs with
    | some d, some rest => some (d :: rest)
    | _, _ => none

/-- The fact that says what both facts say. -/
def meet? (a b : ShapeFact) : Option ShapeFact :=
  (meetDims? a.isOpen b.isOpen a.dims b.dims).map fun dims => ⟨dims, a.isOpen && b.isOpen⟩

theorem meetDims?_comm (p q : Bool) (as bs : List DimFact) :
    meetDims? p q as bs = meetDims? q p bs as := by
  induction as generalizing bs with
  | nil => cases bs <;> rfl
  | cons a as ih => cases bs <;> simp [meetDims?, DimFact.meet?_comm a, ih]

theorem meet?_comm (a b : ShapeFact) : a.meet? b = b.meet? a := by
  rw [meet?, meetDims?_comm, meet?, Bool.and_comm]

theorem meetDims?_self (p q : Bool) (as : List DimFact) : meetDims? p q as as = some as := by
  induction as with
  | nil => rfl
  | cons a as ih => simp [meetDims?, DimFact.meet?_self, ih]

theorem meet?_self (a : ShapeFact) : a.meet? a = some a := by
  simp [meet?, meetDims?_self]

theorem meet?_unknown (a : ShapeFact) : a.meet? unknown = some a := by
  rcases a with ⟨dims, isOpen⟩
  cases dims <;> simp [meet?, meetDims?, unknown, starting]

theorem unknown_meet? (a : ShapeFact) : unknown.meet? a = some a := by
  rw [meet?_comm, meet?_unknown]

/-- The dimensions in notation, with two points at the end of an open shape. -/
def parts (s : ShapeFact) : List String :=
  s.dims.map DimFact.text ++ if s.isOpen then [".."] else []

/-- The shape in its notation. -/
def text (s : ShapeFact) : String := "[" ++ String.intercalate "," s.parts ++ "]"

end ShapeFact

end EdgeFacts
