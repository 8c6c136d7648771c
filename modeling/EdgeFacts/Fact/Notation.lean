/-
# Reading the notation of facts

A shape is written as its dimensions, parted by commas, in brackets that may be
left out: `_` for an unknown dimension, `S` for the streamed one, digits for an
extent, and `..` at the end of an open shape. A tensor fact is a datatype, a
shape in brackets, or both. Blanks around the parts do not matter.

Key definitions: `ShapeFact.parse`, `TensorFact.parse`.
-/
import EdgeFacts.Failure.Basic
import EdgeFacts.Text.Digit
import EdgeFacts.Text.Split
import EdgeFacts.Text.Word

namespace EdgeFacts

open Text

namespace DimFact

/-- The extent that a text of digits stands for. Too many digits with a place
value are told before one without. -/
def parseExtent (token : List Char) : Except Failure DimFact :=
  match readWhole? token with
  | some n => .ok (.known n)
  | none =>
    let places := (token.takeWhile fun c => (digitValue? c).isSome).length
    if maxDigits < places then .error (.longNumeral places)
    else .error (.numeral (String.ofList token))

/-- Reads one dimension of the shape that `text` describes. -/
def parse (text : String) (token : List Char) : Except Failure DimFact :=
  if token = ['_'] then .ok .any
  else if token = ['S'] then .ok .streamed
  else if !token.isEmpty && token.all isDigit then parseExtent token
  else .error (.input (.dimInShape (String.ofList token) text))

end DimFact

namespace ShapeFact

/-- The text without one pair of brackets around it. -/
def dropBrackets (s : List Char) : List Char :=
  match s with
  | '[' :: rest => if rest.getLast? = some ']' then rest.dropLast else s
  | _ => s

/-- The parts of a shape's notation, without blanks around them and without empty ones. -/
def tokens (text : String) : List (List Char) :=
  ((splitAt ',' (dropBrackets (trim text.toList))).map trim).filter fun t => !t.isEmpty

/-- Reads a shape. -/
def parse (text : String) : Except Failure ShapeFact :=
  let parts := tokens text
  if parts.getLast? = some ['.', '.'] then
    return ⟨← parts.dropLast.mapM (DimFact.parse text), true⟩
  else return ⟨← parts.mapM (DimFact.parse text), false⟩

end ShapeFact

namespace TensorFact

/-- Splits the notation of a tensor fact into its datatype and its shape. -/
def splitNotation? (s : List Char) : Option (Option (List Char) × Option (List Char)) :=
  let s := s.dropWhile isBlank
  let (dtype, s) := match s with
    | c :: rest =>
      if isNameStart c then (some (c :: rest.takeWhile isWord), rest.dropWhile isWord)
      else (none, s)
    | [] => (none, s)
  let s := s.dropWhile isBlank
  let shape := match s with
    | '[' :: rest => '[' :: rest.takeWhile (· ≠ ']') ++ [']']
    | _ => []
  let rest := s.drop shape.length
  if shape.isPrefixOf s && rest.all isBlank then
    some (dtype, if shape.isEmpty then none else some shape)
  else none

/-- Reads the datatype of a tensor fact; a low line says nothing. -/
def parseDType : Option (List Char) → Except Failure (Option DType)
  | none => .ok none
  | some word =>
    if word = ['_'] then .ok none
    else match DType.ofSpelling (String.ofList word) with
      | .ok d => .ok (some d)
      | .error _ => .error (.input (.unknownDType (String.ofList word)))

/-- Reads a tensor fact. -/
def parse (text : String) : Except Failure TensorFact :=
  match splitNotation? text.toList with
  | none | some (none, none) => .error (.input (.notFact text))
  | some (word, shape) => do
    let dtype ← parseDType word
    match shape with
    | none => return .ofShape dtype .unknown
    | some s => return .ofShape dtype (← ShapeFact.parse (String.ofList s))

end TensorFact

end EdgeFacts
