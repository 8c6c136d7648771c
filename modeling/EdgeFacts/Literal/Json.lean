/-
# Literals in JSON

Reads and writes literals as JSON. A number without a fraction or an exponent
is a whole number of any size; the others are read as the nearest double, and
`NaN`, `Infinity` and `-Infinity` are numbers as well. Fields keep their order.
Text is written in ASCII, other characters as `\u` escapes of their UTF-16 units.

Key definitions: `Literal.ofJson?`, `Literal.toJson`, `Literal.toJsonLines`.
-/
import EdgeFacts.Literal.Basic

namespace EdgeFacts.Literal

/-! ### Reading -/

/-- The rest of the input behind blanks. -/
def skipBlanks (s : List Char) : List Char :=
  s.dropWhile fun c => c = ' ' || c = '\n' || c = '\r' || c = '\t'

/-- The value of a hexadecimal digit. -/
def hexValue? (c : Char) : Option Nat :=
  if '0' ≤ c ∧ c ≤ '9' then some (c.toNat - '0'.toNat)
  else if 'a' ≤ c ∧ c ≤ 'f' then some (c.toNat - 'a'.toNat + 10)
  else if 'A' ≤ c ∧ c ≤ 'F' then some (c.toNat - 'A'.toNat + 10)
  else Option.none

/-- Four hexadecimal digits and the rest. -/
def readUnit? : List Char → Option (Nat × List Char)
  | a :: b :: c :: d :: rest => do
    let high := (← hexValue? a) * 16 + (← hexValue? b)
    let low := (← hexValue? c) * 16 + (← hexValue? d)
    return (high * 256 + low, rest)
  | _ => Option.none

/-- The rest of a text behind its opening quote, and what follows the closing one. -/
def readText? : Nat → List Char → List Char → Option (String × List Char)
  | 0, _, _ => Option.none
  | _, _, [] => Option.none
  | _ + 1, done, '"' :: rest => some (String.ofList done.reverse, rest)
  | fuel + 1, done, '\\' :: 'u' :: rest => do
    let (unit, rest) ← readUnit? rest
    match rest with
    | '\\' :: 'u' :: behind =>
      let (low, behind) ← readUnit? behind
      if 0xd800 ≤ unit ∧ unit < 0xdc00 ∧ 0xdc00 ≤ low ∧ low < 0xe000 then
        let c := Char.ofNat (0x10000 + (unit - 0xd800) * 0x400 + (low - 0xdc00))
        readText? fuel (c :: done) behind
      else readText? fuel (Text.ofHalf unit :: done) rest
    | _ => readText? fuel (Text.ofHalf unit :: done) rest
  | fuel + 1, done, '\\' :: c :: rest =>
    match c with
    | 'n' => readText? fuel ('\n' :: done) rest
    | 't' => readText? fuel ('\t' :: done) rest
    | 'r' => readText? fuel ('\r' :: done) rest
    | 'b' => readText? fuel (Char.ofNat 8 :: done) rest
    | 'f' => readText? fuel (Char.ofNat 12 :: done) rest
    | '"' | '\\' | '/' => readText? fuel (c :: done) rest
    | _ => Option.none
  | fuel + 1, done, c :: rest => readText? fuel (c :: done) rest

/-- The number that ASCII digits stand for. -/
def wholeOf (digits : List Char) : Nat :=
  digits.foldl (fun n c => 10 * n + (c.toNat - '0'.toNat)) 0

/-- The double nearest to `coefficient · 10 ^ exponent`. What is far outside the
range of doubles is settled before any power is computed. -/
def doubleOf (negative : Bool) (coefficient : Nat) (exponent : Int) : FloatDatum :=
  let leading := exponent + (decimalDigits coefficient).length
  if coefficient = 0 ∨ leading < -400 then .zero negative
  else if 400 < leading then .inf negative
  else
    let x := (coefficient : Rat) * tenPow exponent
    FloatFormat.double.round (if negative then -x else x)

/-- A number and the rest. -/
def readNumber? (s : List Char) : Option (Literal × List Char) :=
  let (negative, s) := match s with
    | '-' :: rest => (true, rest)
    | _ => (false, s)
  let whole := s.takeWhile Char.isDigit
  let s := s.dropWhile Char.isDigit
  if whole.isEmpty then Option.none
  else
    let (point, fraction, s) := match s with
      | '.' :: rest => (true, rest.takeWhile Char.isDigit, rest.dropWhile Char.isDigit)
      | _ => (false, [], s)
    let (scaled, exponent, s) : Bool × Int × List Char := match s with
      | 'e' :: '-' :: rest | 'E' :: '-' :: rest =>
        (true, -(wholeOf (rest.takeWhile Char.isDigit) : Int), rest.dropWhile Char.isDigit)
      | 'e' :: '+' :: rest | 'E' :: '+' :: rest | 'e' :: rest | 'E' :: rest =>
        (true, wholeOf (rest.takeWhile Char.isDigit), rest.dropWhile Char.isDigit)
      | _ => (false, 0, s)
    if point || scaled then
      some (float (doubleOf negative (wholeOf (whole ++ fraction)) (exponent - fraction.length)), s)
    else
      let n : Int := wholeOf whole
      some (int (if negative then -n else n), s)

/-- The words that are values. -/
def words : List (String × Literal) := [
  ("null", none), ("true", bool true), ("false", bool false), ("NaN", float .nan),
  ("Infinity", float (.inf false)), ("-Infinity", float (.inf true))]

/-- A word that is a value and the rest. -/
def readWord? (s : List Char) : Option (Literal × List Char) :=
  (words.find? fun w => w.1.toList.isPrefixOf s).map fun w => (w.2, s.drop w.1.length)

mutual

/-- A value and the rest of the input. -/
def readValue? : Nat → List Char → Option (Literal × List Char)
  | 0, _ => Option.none
  | fuel + 1, s =>
    match skipBlanks s with
    | '"' :: rest => (readText? (rest.length + 1) [] rest).map fun (s, rest) => (text s, rest)
    | '[' :: rest =>
      match skipBlanks rest with
      | ']' :: rest => some (list [], rest)
      | rest => readItems? fuel [] rest
    | '\x7b' :: rest =>
      match skipBlanks rest with
      | '\x7d' :: rest => some (record [], rest)
      | rest => readFields? fuel [] rest
    | rest => (readWord? rest).or (readNumber? rest)

/-- The items of a list up to its closing bracket. -/
def readItems? : Nat → List Literal → List Char → Option (Literal × List Char)
  | 0, _, _ => Option.none
  | fuel + 1, done, s => do
    let (x, rest) ← readValue? fuel s
    match skipBlanks rest with
    | ',' :: rest => readItems? fuel (x :: done) rest
    | ']' :: rest => return (list (x :: done).reverse, rest)
    | _ => Option.none

/-- The fields of a record up to its closing brace. -/
def readFields? : Nat → List (String × Literal) → List Char → Option (Literal × List Char)
  | 0, _, _ => Option.none
  | fuel + 1, done, s => do
    match skipBlanks s with
    | '"' :: rest =>
      let (name, rest) ← readText? (rest.length + 1) [] rest
      match skipBlanks rest with
      | ':' :: rest =>
        let (x, rest) ← readValue? fuel rest
        match skipBlanks rest with
        | ',' :: rest => readFields? fuel (Table.insert done name x) rest
        | '\x7d' :: rest => return (record (Table.insert done name x), rest)
        | _ => Option.none
      | _ => Option.none
    | _ => Option.none

end

/-- Reads a literal from JSON; each step of the reading uses up a character. -/
def ofJson? (s : String) : Option Literal := do
  let input := s.toList
  let (x, rest) ← readValue? (input.length + 1) input
  if (skipBlanks rest).isEmpty then return x else Option.none

/-! ### Writing -/

/-- A `\u` escape of one UTF-16 unit. -/
def escapeUnit (n : Nat) : List Char := '\\' :: 'u' :: Text.hex 4 n

/-- One character of a JSON text. -/
def escapeChar (c : Char) : List Char :=
  if c = '"' || c = '\\' then ['\\', c]
  else if c = '\n' then ['\\', 'n']
  else if c = '\r' then ['\\', 'r']
  else if c = '\t' then ['\\', 't']
  else if c.toNat = 8 then ['\\', 'b']
  else if c.toNat = 12 then ['\\', 'f']
  else if 32 ≤ c.toNat ∧ c.toNat < 127 then [c]
  else if c.toNat < 0x10000 then escapeUnit c.toNat
  else match Text.half? c with
  | some unit => escapeUnit unit
  | Option.none =>
    let n := c.toNat - 0x10000
    escapeUnit (0xd800 + n / 0x400) ++ escapeUnit (0xdc00 + n % 0x400)

/-- A text between quotes. -/
def quoteJson (s : String) : String :=
  String.ofList ('"' :: s.toList.flatMap escapeChar ++ ['"'])

mutual

/-- The literal as JSON on one line. -/
def toJson : Literal → String
  | none => "null"
  | bool b => if b then "true" else "false"
  | int n => toString n
  | float .nan => "NaN"
  | float (.inf negative) => if negative then "-Infinity" else "Infinity"
  | float x => x.text
  | text s => quoteJson s
  | list items => "[" ++ String.intercalate ", " (itemsToJson items) ++ "]"
  | record fields => "\x7b" ++ String.intercalate ", " (fieldsToJson fields) ++ "\x7d"

/-- The items of a list as JSON. -/
def itemsToJson : List Literal → List String
  | [] => []
  | x :: xs => toJson x :: itemsToJson xs

/-- The fields of a record as JSON. -/
def fieldsToJson : List (String × Literal) → List String
  | [] => []
  | (name, x) :: fs => (quoteJson name ++ ": " ++ toJson x) :: fieldsToJson fs

end

/-- A record of texts as JSON, a field on each line. -/
def toJsonLines (fields : List (String × String)) : String :=
  if fields.isEmpty then "\x7b\x7d"
  else
    let lines := fields.map fun f => "  " ++ quoteJson f.1 ++ ": " ++ quoteJson f.2
    "\x7b\n" ++ String.intercalate ",\n" lines ++ "\n\x7d"

end EdgeFacts.Literal
