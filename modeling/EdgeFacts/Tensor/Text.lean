/-
# Tensors as text

A tensor is written row by row in brackets. The elements of a tensor are
aligned: all have one width, and floating-point numbers one notation, which is
scientific if they are very large, very small or far apart. A tensor of more
than 16 elements shows the first and last three entries of its long axes. Rows
are wrapped before column 75.

Key definitions: `Tensor.text`.
-/
import EdgeFacts.Number.Decimal
import EdgeFacts.Tensor.Basic

namespace EdgeFacts

-- The order of rationals is that of the core library, whatever else is imported.
attribute [local instance (high)] Rat.instMax Rat.instMin

namespace TensorText

/-- How tensors are laid out. -/
structure Layout where
  lineWidth : Nat
  /-- The largest number of elements that are all shown. -/
  threshold : Nat
  /-- How many entries are shown at each end of a long axis. -/
  edge : Nat
  /-- The largest number of digits after the point. -/
  places : Nat

/-- Lines end before column 75, at most 16 elements are all shown, long axes
show three entries at each end, and numbers have at most 8 places. -/
def layout : Layout := ⟨75, 16, 3, 8⟩

/-- The text with blanks in front, up to a width. -/
def padLeft (width : Nat) (s : List Char) : List Char :=
  List.replicate (width - s.length) ' ' ++ s

/-- The text with blanks behind, up to a width. -/
def padRight (width : Nat) (s : List Char) : List Char :=
  s ++ List.replicate (width - s.length) ' '

/-- The greatest length of the texts. -/
def widest (texts : List (List Char)) : Nat := (texts.map List.length).foldl max 0

/-! ### Numbers -/

/-- The finite values among the elements. -/
def finiteValues (data : List FloatDatum) : List Rat :=
  data.filterMap fun d => match d.value with
    | .finite x => some x
    | _ => none

/-- The magnitude from which on numbers of the width are written scientifically. -/
def scientificFrom : FloatWidth → Rat
  | .w16 => tenPow 3
  | .w32 => tenPow 6
  | .w64 => tenPow 8

/-- Whether a rational, brought into the format, is above another number. -/
def above (f : FloatFormat) (x bound : Rat) : Bool :=
  match f.round x with
  | .finite y => bound < y
  | _ => true

/-- Whether a positive `x` is below `bound`, itself brought into the format. -/
def below (f : FloatFormat) (x bound : Rat) : Bool :=
  match f.round bound with
  | .finite y => x < y
  | _ => false

/-- Whether numbers are written scientifically: the greatest is too large, the
least too small, or their quotient is above 1000. -/
def isScientific (w : FloatWidth) (values : List Rat) : Bool :=
  match (values.filter (· ≠ 0)).map magnitude with
  | [] => false
  | x :: xs =>
    let greatest := xs.foldl max x
    let least := xs.foldl min x
    scientificFrom w ≤ greatest || below w.format least (mkRat 1 10000)
      || above w.format (greatest / least) 1000

/-- The sign of an element, if it shows. -/
def signText (d : FloatDatum) : List Char := if d.isNegative then ['-'] else []

/-- The decimal of a finite magnitude, cut at a digit of the given exponent. -/
def cut (f : FloatFormat) (x : Rat) (e : Int) : Decimal :=
  if x = 0 then ⟨0, 0⟩
  else
    let d := f.shortest x
    if e ≤ d.exponent then d else (Decimal.nearest x e).normalize

/-- The magnitude of a finite datum. -/
def finiteMagnitude (d : FloatDatum) : Rat :=
  match d.value with
  | .finite x => magnitude x
  | _ => 0

/-- The digits before the point, with the sign, and those after it. -/
def positionalParts (w : FloatWidth) (d : FloatDatum) : List Char × List Char :=
  let parts := (cut w.format (finiteMagnitude d) (-(layout.places : Int))).positional
  (signText d ++ parts.1, parts.2)

/-- A number in scientific form. -/
structure Scientific where
  /-- The leading digit, with the sign. -/
  whole : List Char
  fraction : List Char
  exponent : Int

/-- A decimal in scientific form. -/
def Scientific.ofDecimal (sign : List Char) (d : Decimal) : Scientific :=
  let (whole, fraction, exponent) := d.scientific
  ⟨sign ++ whole, fraction, exponent⟩

/-- The exponent of the leading digit of a magnitude. -/
def leadingExponent (x : Rat) : Int := if x = 0 then 0 else Decimal.leadingOf x

/-- A number with the fewest digits that tell it apart. -/
def scientificBrief (w : FloatWidth) (d : FloatDatum) : Scientific :=
  let x := finiteMagnitude d
  .ofDecimal (signText d) (cut w.format x (leadingExponent x - layout.places))

/-- A number with the given count of digits after the point: where it needs fewer
to be told apart, the next ones are those of its exact value. -/
def scientificExact (w : FloatWidth) (places : Nat) (d : FloatDatum) : Scientific :=
  let x := finiteMagnitude d
  let rounded := if x = 0 then ⟨0, 0⟩ else w.format.roundTo x (leadingExponent x - places)
  let s := Scientific.ofDecimal (signText d) rounded
  { s with fraction := s.fraction ++ List.replicate (places - s.fraction.length) '0' }

/-- The text of what is not finite. -/
def specialText : FloatDatum → List Char
  | .inf negative => if negative then ['-', 'i', 'n', 'f'] else ['i', 'n', 'f']
  | _ => ['n', 'a', 'n']

/-- Whether a datum is a finite number. -/
def isFinite : FloatDatum → Bool
  | .nan | .inf _ => false
  | _ => true

/-- The width before the point, widened for what is not finite. -/
def leftWidth (data : List FloatDatum) (left right : Nat) : Nat :=
  if data.all isFinite then left
  else if data.contains (.inf true) then max left (3 - right)
  else max left (2 - right)

/-- How the numbers of a tensor are written, given those that are shown. -/
def floatText (w : FloatWidth) (data : List FloatDatum) : FloatDatum → List Char :=
  let finite := data.filter isFinite
  let special (left right : Nat) (d : FloatDatum) := padLeft (left + 1 + right) (specialText d)
  if isScientific w (finiteValues data) then
    let brief := finite.map (scientificBrief w)
    let places := widest (brief.map (·.fraction))
    let exponentDigits :=
      (brief.map fun s => max 2 (decimalDigits s.exponent.natAbs).length).foldl max 0
    let right := places + exponentDigits + 2
    let left := leftWidth data (widest (brief.map (·.whole))) right
    fun d =>
      if isFinite d then
        let s := scientificExact w places d
        padLeft left s.whole ++ '.' :: s.fraction ++ 'e' :: exponentText exponentDigits s.exponent
      else special left right d
  else
    let parts := finite.map (positionalParts w)
    let right := widest (parts.map (·.2))
    let left := leftWidth data (widest (parts.map (·.1))) right
    fun d =>
      if isFinite d then
        let p := positionalParts w d
        padLeft left p.1 ++ '.' :: padRight right p.2
      else special left right d

/-- How the elements of a tensor are written, given those that are shown. -/
def elementText (e : ElemType) (rank : Nat) (shown : List Scalar) : Scalar → List Char :=
  match e with
  | .bool => fun a =>
    if a.toBool then (if rank = 0 then "True" else " True").toList else "False".toList
  | .float w =>
    let text := floatText w (shown.map Scalar.toFloat)
    fun a => text a.toFloat
  | _ =>
    let text (a : Scalar) := (toString a.toInt).toList
    let width := widest (shown.map text)
    fun a => padLeft width (text a)

/-! ### Rows -/

/-- Whether only the ends of an axis are shown. -/
def isLong (summarize : Bool) (n : Nat) : Bool := summarize && 2 * layout.edge < n

/-- The positions of an axis that are shown; `none` stands for those left out. -/
def shownPositions (summarize : Bool) (n : Nat) : List (Option Nat) :=
  if isLong summarize n then
    (List.range layout.edge).map some ++ [none]
      ++ (List.range layout.edge).map fun i => some (n - layout.edge + i)
  else (List.range n).map some

/-- The index lists of the elements that are shown. -/
def shownIndices (summarize : Bool) : List Nat → List (List Nat)
  | [] => [[]]
  | n :: rest => ((shownPositions summarize n).filterMap id).flatMap fun i =>
      (shownIndices summarize rest).map (i :: ·)

/-- The text without blanks at its end. -/
def trimEnd (s : List Char) : List Char := (s.reverse.dropWhile (· = ' ')).reverse

/-- Adds words to a row, each but the last followed by a comma. A word that
would pass the width starts a new line, unless the line is empty. -/
def fillRow (width : Nat) (indent : List Char) :
    List (List Char) → List Char → List Char → List Char
  | [], done, line => done ++ line
  | word :: rest, done, line =>
    let wrap := width < line.length + word.length && indent.length < line.length
    let done := if wrap then done ++ trimEnd line ++ ['\n'] else done
    let line := (if wrap then indent else line) ++ word
    fillRow width indent rest done (if rest.isEmpty then line else line ++ [','])

/-- Puts rows under each other, `blank` line ends between them. -/
def stackRows (blank : Nat) (indent : List Char) : List (List Char) → List Char
  | [] => []
  | [row] => indent ++ row
  | row :: rest => indent ++ row ++ ',' :: List.replicate blank '\n' ++ stackRows blank indent rest

/-- The entries of a tensor behind the coordinates `done`, in brackets. -/
def bracket (summarize : Bool) (element : List Nat → List Char) :
    List Nat → List Nat → List Char → Nat → List Char
  | [], done, _, _ => element done
  | n :: rest, done, indent, width =>
    let entries := (shownPositions summarize n).map fun p => match p with
      | some i => bracket summarize element rest (done ++ [i]) (' ' :: indent) (width - 1)
      | none => ['.', '.', '.']
    let body :=
      if rest.isEmpty then fillRow (width - 1) indent entries [] indent
      else stackRows rest.length indent entries
    '[' :: body.drop indent.length ++ [']']

end TensorText

open TensorText in
/-- The tensor as text. -/
def Tensor.text (t : Tensor) : String :=
  if t.data.isEmpty then "[]"
  else
    let summarize := decide (layout.threshold < t.data.size)
    let shown := (shownIndices summarize t.shape).map t.get
    let element := elementText t.elem t.rank shown
    String.ofList (bracket summarize (fun i => element (t.get i)) t.shape [] [' '] layout.lineWidth)

end EdgeFacts
