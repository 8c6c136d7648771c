/-
# Spellings of datatypes

A datatype is spelled by a name, by a one-letter code, by a kind letter with a
size in bytes or characters, or as a type of times with its step; codes and
times also stand behind a mark of byte order, which says nothing here.

Several spellings parted by commas are a record. Each part may be repeated: a
number or a list of extents in front of it makes it an array.

Key definitions: `DTypeFault`, `DType.ofSpelling`.
Key theorems: `DType.ofSpelling_name`.
-/
import EdgeFacts.Tensor.DType
import EdgeFacts.Text.Split

namespace EdgeFacts

-- Powers and sums are those of the core library, whatever else is imported.
attribute [local instance (high)] instPowNat Zero.ofOfNat0

/-- Why fields listed side by side make no record. -/
inductive RecordFault where
  | unequalLengths
  | alignedFlag
  | fieldName
  | repeatedName
  | offsetNegative (offset : Int)
  | offsetUnaligned (offset alignment : Nat)
  | sizeTooSmall (needed : Nat) (given : Int)
  | sizeUnaligned (alignment : Nat) (given : Int)
  | numberTooLarge
deriving DecidableEq, Repr

/-- Why something spells no datatype. -/
inductive DTypeFault where
  | unknown (spelling : String)
  | time (fault : TimeFault)
  /-- A part of a list of spellings cannot be read. -/
  | part (index : Nat) (text : String)
  | byteOrders (first second : Char)
  /-- How often a part is repeated cannot be read. -/
  | repeats (shown : String)
  | itemSize
  /-- An array has too many axes, or an extent that no machine word holds. -/
  | extents
  | extentTooLarge
  | arrayTooLarge
  /- Values that are no text. -/
  | uninterpreted (shown : String)
  | fieldElement (shown : String)
  | fieldEntry
  | noLength (kind : String)
  | notIterable (kind : String)
  | notIndex (kind : String)
  | record (fault : RecordFault)
deriving DecidableEq, Repr

namespace TimeFault

/-- Whether a fault lies in the form of a step and not in its numbers. -/
def isFormal : TimeFault → Bool
  | malformed .. | unknownUnit _ => true
  | indivisible .. | dividedNothing => false

end TimeFault

namespace DTypeFault

/-- Whether what was given is nothing that could spell a datatype, rather than a
spelling whose numbers or parts do not fit. -/
def isKindFault : DTypeFault → Bool
  | unknown _ | uninterpreted _ | fieldElement _ | noLength _ | notIterable _ | notIndex _ => true
  | time fault => fault.isFormal
  | _ => false

/-- Whether a spelling has numbers or parts that do not fit; repeats that cannot be
read are a fault of another kind. -/
def isContentFault : DTypeFault → Bool
  | repeats _ => false
  | fault => !fault.isKindFault

end DTypeFault

namespace DType

/-! ### Single spellings -/

/-- The spellings that are names. -/
def names : List (String × DType) := [
  ("bool", bool), ("bool_", bool),
  ("byte", int8), ("int8", int8), ("int16", int16), ("short", int16),
  ("int32", int32), ("intc", int32),
  ("int", int64), ("int64", int64), ("int_", int64), ("intp", int64), ("long", int64),
  ("longlong", int64),
  ("ubyte", uint8), ("uint8", uint8), ("uint16", uint16), ("ushort", uint16),
  ("uint32", uint32), ("uintc", uint32),
  ("uint", uint64), ("uint64", uint64), ("uintp", uint64), ("ulong", uint64),
  ("ulonglong", uint64),
  ("float16", float16), ("half", float16), ("float32", float32), ("single", float32),
  ("double", float64), ("float", float64), ("float64", float64),
  ("float128", float128), ("longdouble", float128),
  ("complex64", complex64), ("csingle", complex64),
  ("cdouble", complex128), ("complex", complex128), ("complex128", complex128),
  ("clongdouble", complex256), ("complex256", complex256),
  ("object", object), ("object_", object),
  ("str", text 0), ("str_", text 0), ("unicode", text 0),
  ("bytes", bytes 0), ("bytes_", bytes 0), ("void", void 0)]

/-- The types that control characters number. -/
def numbered : List DType := [
  bool, int8, uint8, int16, uint16, int32, uint32, int64, uint64, int64, uint64, float32, float64,
  float128, complex64, complex128, complex256, object, bytes 0, text 0, void 0, datetime64 none,
  timedelta64 none, float16, bytes 1]

/-- The spellings of one character. -/
def ofLetter? : Char → Option DType
  | '?' => some bool
  | 'b' => some int8
  | 'h' => some int16
  | 'i' => some int32
  | 'l' | 'n' | 'p' | 'q' => some int64
  | 'B' => some uint8
  | 'H' => some uint16
  | 'I' => some uint32
  | 'L' | 'N' | 'P' | 'Q' => some uint64
  | 'e' => some float16
  | 'f' => some float32
  | 'd' => some float64
  | 'g' => some float128
  | 'F' => some complex64
  | 'D' => some complex128
  | 'G' => some complex256
  | 'O' => some object
  | 'M' => some (datetime64 none)
  | 'm' => some (timedelta64 none)
  | 'T' => some variableText
  | 'U' => some (text 0)
  | 'S' | 'a' => some (bytes 0)
  | 'V' => some (void 0)
  | 'c' => some (bytes 1)
  | c => numbered[c.toNat]?

/-- The spellings of a kind letter and a size. -/
def ofKind? : Char → Nat → Option DType
  | 'b', 1 => some bool
  | 'i', 1 => some int8
  | 'i', 2 => some int16
  | 'i', 4 => some int32
  | 'i', 8 => some int64
  | 'u', 1 => some uint8
  | 'u', 2 => some uint16
  | 'u', 4 => some uint32
  | 'u', 8 => some uint64
  | 'f', 2 => some float16
  | 'f', 4 => some float32
  | 'f', 8 => some float64
  | 'f', 16 => some float128
  | 'c', 8 => some complex64
  | 'c', 16 => some complex128
  | 'c', 32 => some complex256
  | 'O', 4 | 'O', 8 => some object
  | 'M', 8 => some (datetime64 none)
  | 'm', 8 => some (timedelta64 none)
  | 'U', n => if n < 2 ^ (29 : Nat) then some (text n) else none
  | 'S', n | 'a', n => if n < 2 ^ (31 : Nat) then some (bytes n) else none
  | 'V', n => if n < 2 ^ (31 : Nat) then some (void n) else none
  | _, _ => none

/-- The greatest size and the greatest extent. -/
def maxSize : Nat := 2 ^ (31 : Nat) - 1

/-- A code: one character, or a kind letter and a size. -/
def ofCode? : List Char → Option DType
  | [c] => ofLetter? c
  | c :: size =>
    match Text.leadingInteger? size with
    | some (n, []) => if 0 ≤ n ∧ n ≤ maxSize then ofKind? c n.toNat else none
    | _ => none
  | [] => none

/-- Whether the character marks the order of bytes. -/
def isOrderMark (c : Char) : Bool := c = '<' || c = '>' || c = '=' || c = '|'

/-- The spelling without a mark of byte order. -/
def dropMark : List Char → List Char
  | c :: rest => if isOrderMark c then rest else c :: rest
  | [] => []

/-- The words for points in time and for spans, and their codes. -/
def timeWords : List (String × (Option TimeStep → DType)) := [
  ("M8", datetime64), ("datetime64", datetime64), ("m8", timedelta64), ("timedelta64", timedelta64)]

/-- The type of times that a spelling begins with, and what stands behind it. -/
def timeType? (s : List Char) : Option ((Option TimeStep → DType) × List Char) :=
  (timeWords.find? fun w => w.1.toList.isPrefixOf s).map fun w => (w.2, s.drop w.1.length)

/-- The datatype that a text spells by itself. A name stands without a mark. -/
def ofSingle (s : List Char) : Except DTypeFault DType :=
  match timeType? (dropMark s) with
  | some (make, step) =>
    match TimeStep.read step with
    | .ok step => .ok (make step)
    | .error fault => .error (.time fault)
  | none =>
    match (ofCode? (dropMark s)).or ((names.find? (·.1.toList = s)).map (·.2)) with
    | some d => .ok d
    | none => .error (.unknown (String.ofList s))

/-! ### Arrays and records -/

/-- How often a part is repeated. -/
inductive Repeats where
  | count (n : Nat)
  | extents (ns : List Nat)
deriving DecidableEq, Repr

/-- A part of a list of spellings. -/
structure Part where
  repeats : Option Repeats
  spelling : List Char
deriving DecidableEq, Repr

/-- Whether a comma stands outside brackets, `depth` of which are open. -/
def hasOuterComma : Int → List Char → Bool
  | _, [] => false
  | depth, c :: rest =>
    if c = ',' then depth = 0 || hasOuterComma depth rest
    else if c = '[' then hasOuterComma (depth + 1) rest
    else if c = ']' then hasOuterComma (depth - 1) rest
    else hasOuterComma depth rest

/-- Whether a spelling begins with repeats: a digit or empty brackets. Behind a mark
of byte order something must follow the brackets. -/
def hasRepeats : List Char → Bool
  | '(' :: ')' :: _ => true
  | c :: rest =>
    c.isDigit || isOrderMark c && match rest with
      | '(' :: ')' :: _ :: _ => true
      | d :: _ => d.isDigit
      | [] => false
  | [] => false

/-- Whether a spelling has parts or repeats. -/
def isCompound (s : List Char) : Bool := hasRepeats s || hasOuterComma 0 s

/-- Takes one character of a class, if it stands in front. -/
def takeOne (p : Char → Bool) : List Char → List Char × List Char
  | c :: rest => if p c then ([c], rest) else ([], c :: rest)
  | [] => ([], [])

/-- Takes the repeats of a part: digits, commas and blanks, in brackets or not. -/
def takeRepeats (s : List Char) : List Char × List Char :=
  let (blank, s) := s.span (· = ' ')
  let (opening, s) := takeOne (· = '(') s
  let (inner, s) := s.span fun c => c = ' ' || c = ',' || c.isDigit
  let (closing, s) := takeOne (· = ')') s
  let (behind, s) := s.span (· = ' ')
  (blank ++ opening ++ inner ++ closing ++ behind, s)

/-- Takes the type of a part: a word, and brackets with a word or list in them. -/
def takeType (s : List Char) : List Char × List Char :=
  let (word, s) := s.span fun c => c.isAlphanum || c = '.' || c = '?'
  match s with
  | '[' :: rest =>
    match rest.span fun c => c.isAlphanum || c = '.' || c = ',' with
    | (inner, ']' :: behind) => (word ++ '[' :: inner ++ [']'], behind)
    | _ => (word, s)
  | _ => (word, s)

/-- A number as it stands among repeats: only zero may begin with 0. -/
def readCount? (s : List Char) : Option Nat :=
  match s with
  | '0' :: rest => if rest.all (· = '0') then Text.readPlainWhole? s else none
  | _ => Text.readPlainWhole? s

/-- Numbers with commas between them, and perhaps one at the end. -/
def readCounts? (s : List Char) : Option (List Nat) :=
  let items := (Text.splitAt ',' s).map (Text.trimOf (· = ' '))
  (if 1 < items.length && items.getLast? = some [] then items.dropLast else items).mapM readCount?

/-- Repeats: one number, or a list of extents. -/
def readRepeats? (s : List Char) : Option Repeats :=
  let s := Text.trimOf (· = ' ') s
  let (inner, bracketed) := match s with
    | '(' :: rest =>
      if rest.getLast? = some ')' then (Text.trimOf (· = ' ') rest.dropLast, true) else (s, false)
    | _ => (s, false)
  if bracketed && inner.isEmpty then some (.extents [])
  else
    match readCounts? inner with
    | some [n] => some (if inner.contains ',' then .extents [n] else .count n)
    | some ns => some (.extents ns)
    | none => none

/-- The common mark of byte order of the marks in front of and behind repeats.
Only that for the reversed order is kept. -/
def joinMarks (first second : List Char) : Except DTypeFault (List Char) :=
  let plain (c : Char) : Char := if c = '=' then '<' else c
  match first, second with
  | [a], [b] =>
    if plain a = plain b then .ok (if plain a = '>' then ['>'] else [])
    else .error (.byteOrders (plain a) (plain b))
  | a, b => .ok (if a ++ b = ['>'] then ['>'] else [])

/-- The part with the given marks, repeats and type. -/
def makePart (first repeats second word : List Char) : Except DTypeFault Part := do
  let mark ← joinMarks first second
  if repeats.isEmpty then return ⟨none, mark ++ word⟩
  else match readRepeats? repeats with
    | some r => return ⟨some r, mark ++ word⟩
    | none => throw (.repeats (String.ofList repeats))

/-- The parts of a spelling from the one at `index` on, and whether there is a
comma. Each part uses up some of the text, so `fuel` is its length. -/
def readParts (all : List Char) : Nat → Nat → List Char → Except DTypeFault (List Part × Bool)
  | 0, _, _ | _, _, [] => .ok ([], false)
  | fuel + 1, index, s => do
    let (first, s) := takeOne isOrderMark s
    let (repeats, s) := takeRepeats s
    let (second, s) := takeOne isOrderMark s
    let (word, s) := takeType s
    match s.dropWhile Text.isBlank with
    | [] =>
      return ([← makePart first repeats second word], false)
    | ',' :: rest =>
      let part ← makePart first repeats second word
      let (parts, _) ← readParts all fuel (index + 1) (rest.dropWhile Text.isBlank)
      return (part :: parts, true)
    | _ => throw (.part (index + 1) (String.ofList all))

/-- A datatype repeated: with a size, if it has none, or as an array. An array has an
axis also for a single element; only without axes it is the datatype itself. -/
def repeated (d : DType) (r : Repeats) : Except DTypeFault DType :=
  match r, d.resize? 0 with
  | .count n, some _ =>
    match d.resize? n with
    | some sized => if n ≤ maxSize then .ok sized else .error .itemSize
    | none => .error .itemSize
  | .extents _, some _ => .error .itemSize
  | .extents [], none => .ok d
  | r, none =>
    let extents := match r with
      | .count n => [n]
      | .extents ns => ns
    if 64 < extents.length || extents.any (2 ^ (63 : Nat) ≤ ·) then .error .extents
    else if extents.any (maxSize < ·) then .error .extentTooLarge
    else
      let count := extents.foldl (· * ·) 1
      if maxSize < count || maxSize < count * d.size then .error .arrayTooLarge
      else .ok (void (count * d.size))

/-- The record of the given types. -/
def recordOf (types : List DType) : DType := void (types.map size).sum

/-- The datatype of a spelling. The parts of a spelling are shorter than it, so
`fuel` is its length. -/
def ofText : Nat → List Char → Except DTypeFault DType
  | 0, s => ofSingle s
  | fuel + 1, s =>
    if isCompound s then do
      let (parts, several) ← readParts s s.length 0 s
      let parts := if several && parts.getLast? = some ⟨none, []⟩ then parts.dropLast else parts
      let types ← parts.mapM fun p => do
        let d ← ofText fuel p.spelling
        match p.repeats with
        | some r => repeated d r
        | none => return d
      match several, types with
      | false, [d] => return d
      | _, types => return recordOf types
    else ofSingle s

/-- The datatype that a text spells. -/
def ofSpelling (s : String) : Except DTypeFault DType := ofText s.length s.toList

/-- The name of an element type spells it. -/
theorem ofSpelling_name (e : ElemType) : ofSpelling e.name = .ok (.elem e) := by
  have hread : (ofSpelling e.name).toOption = some (.elem e) := by
    rcases e with _ | w | w | w <;> (try cases w) <;> decide +kernel
  cases h : ofSpelling e.name with
  | ok d =>
    rw [h] at hread
    exact congrArg Except.ok (Option.some.inj hread)
  | error fault =>
    rw [h] at hread
    cases hread

end DType

end EdgeFacts
