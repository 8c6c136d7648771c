/-
# Digits and whole numbers in text

Every script has its ten decimal digits in a row, so a table of the zeros tells
the value of each (`digitValue?`). A few more characters, such as superscripts,
count as digits but have no place value. `readWhole?` reads digits with place
value and `readInteger?` also spaces around them, a sign and single low lines
between them. `readPlainInteger?` takes ASCII digits only, but also a fraction of
zeros. None of them reads more than `maxDigits` digits. `leadingInteger?` reads
an integer at the front of a text.

Key definitions: `digitValue?`, `isDigit`, `readWhole?`, `readInteger?`,
`readPlainInteger?`, `leadingInteger?`.
-/
import EdgeFacts.Text.Blank

namespace EdgeFacts.Text

/-- The code points of the zeros of all scripts. -/
def zeroPoints : List Nat := [
  0x30, 0x660, 0x6f0, 0x7c0, 0x966, 0x9e6, 0xa66, 0xae6, 0xb66, 0xbe6, 0xc66, 0xce6, 0xd66, 0xde6,
  0xe50, 0xed0, 0xf20, 0x1040, 0x1090, 0x17e0, 0x1810, 0x1946, 0x19d0, 0x1a80, 0x1a90, 0x1b50,
  0x1bb0, 0x1c40, 0x1c50, 0xa620, 0xa8d0, 0xa900, 0xa9d0, 0xa9f0, 0xaa50, 0xabf0, 0xff10, 0x104a0,
  0x10d30, 0x11066, 0x110f0, 0x11136, 0x111d0, 0x112f0, 0x11450, 0x114d0, 0x11650, 0x116c0, 0x11730,
  0x118e0, 0x11950, 0x11c50, 0x11d50, 0x11da0, 0x16a60, 0x16ac0, 0x16b50, 0x1d7ce, 0x1d7d8, 0x1d7e2,
  0x1d7ec, 0x1d7f6, 0x1e140, 0x1e2f0, 0x1e950, 0x1fbf0]

/-- The code points of digits without a place value. -/
def placelessRanges : List (Nat × Nat) := [
  (0xb2, 0xb3), (0xb9, 0xb9), (0x1369, 0x1371), (0x19da, 0x19da), (0x2070, 0x2070),
  (0x2074, 0x2079), (0x2080, 0x2089), (0x2460, 0x2468), (0x2474, 0x247c), (0x2488, 0x2490),
  (0x24ea, 0x24ea), (0x24f5, 0x24fd), (0x24ff, 0x24ff), (0x2776, 0x277e), (0x2780, 0x2788),
  (0x278a, 0x2792), (0x10a40, 0x10a43), (0x10e60, 0x10e68), (0x11052, 0x1105a), (0x1f100, 0x1f10a)]

/-- The place value of a decimal digit of any script. -/
def digitValue? (c : Char) : Option Nat :=
  (zeroPoints.find? fun z => z ≤ c.toNat && c.toNat < z + 10).map (c.toNat - ·)

/-- Whether the character counts as a digit, with a place value or without. -/
def isDigit (c : Char) : Bool := (digitValue? c).isSome || inRanges placelessRanges c

/-- The most digits that a number may be read from. -/
def maxDigits : Nat := 4300

/-- The number whose digits, most significant first, are given. -/
def ofDigits (digits : List Nat) : Nat := digits.foldl (fun n d => 10 * n + d) 0

/-- Reads a text of decimal digits. -/
def readWhole? (s : List Char) : Option Nat := do
  if s.isEmpty || maxDigits < s.length then none
  else return ofDigits (← s.mapM digitValue?)

/-- Removes low lines that stand between two characters. -/
def dropSeparators : List Char → Option (List Char)
  | [] => some []
  | ['_'] => none
  | '_' :: '_' :: _ => none
  | '_' :: c :: rest => (dropSeparators rest).map (c :: ·)
  | c :: rest => (dropSeparators rest).map (c :: ·)

/-- Reads an unsigned number whose digits may be parted by single low lines. -/
def readUnsigned? : List Char → Option Nat
  | '_' :: _ => none
  | s => (dropSeparators s).bind readWhole?

/-- Reads a number with an optional sign and spaces around it. -/
def readInteger? (s : List Char) : Option Int :=
  match trimOf isSpace s with
  | '-' :: rest => (readUnsigned? rest).map fun n => -(n : Int)
  | '+' :: rest => (readUnsigned? rest).map Int.ofNat
  | rest => (readUnsigned? rest).map Int.ofNat

/-! ### ASCII digits -/

/-- The text without zeros in front, and low lines among them; the last zero
stays if no other digit follows. -/
def dropLeadingZeros (s : List Char) : List Char :=
  let behind := s.dropWhile fun c => c = '0' || c = '_'
  match s, behind with
  | '0' :: _, c :: _ => if c.isDigit then behind else s.drop (s.length - behind.length - 1)
  | '0' :: _, [] => s.drop (s.length - 1)
  | _, _ => s

/-- The text without a point and zeros at its end. -/
def dropZeroFraction (s : List Char) : List Char :=
  let behind := (s.dropWhile (· ≠ '.')).drop 1
  if !behind.isEmpty && behind.all (· = '0') then s.takeWhile (· ≠ '.') else s

/-- Reads ASCII digits. -/
def readPlainWhole? (s : List Char) : Option Nat :=
  if s.all Char.isDigit then readWhole? s else none

/-- Reads a number in ASCII digits, with an optional sign and spaces around it.
Its fraction may be zero; zeros may stand in front if there is no minus. -/
def readPlainInteger? (s : List Char) : Option Int := do
  let body ← match trimOf isSpace s with
    | '+' :: '-' :: _ => none
    | '+' :: rest => some rest
    | rest => some rest
  match dropZeroFraction (dropLeadingZeros body) with
  | '_' :: _ => none
  | body =>
    match ← dropSeparators body with
    | '-' :: '0' :: _ :: _ => none
    | '-' :: digits => (readPlainWhole? digits).map fun n => -(n : Int)
    | digits => (readPlainWhole? digits).map Int.ofNat

/-- The integer at the front of a text, in ASCII digits with spaces and a sign
before them, and the rest of the text. -/
def leadingInteger? (s : List Char) : Option (Int × List Char) :=
  let body := s.dropWhile isAsciiSpace
  let (negative, body) := match body with
    | '-' :: rest => (true, rest)
    | '+' :: rest => (false, rest)
    | rest => (false, rest)
  let digits := body.takeWhile Char.isDigit
  if digits.isEmpty then none
  else
    let n : Int := ofDigits (digits.map fun c => c.toNat - '0'.toNat)
    some (if negative then -n else n, body.drop digits.length)

end EdgeFacts.Text
