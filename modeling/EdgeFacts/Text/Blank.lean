/-
# Blank characters

The characters that separate words in a text, by the Unicode standard: those of
the class of separators and those whose direction is blank. `trim` removes them
at both ends.

Numbers are trimmed of less: `isSpace` leaves out the separators of records, and
`isAsciiSpace` what is not ASCII.

Key definitions: `isBlank`, `isSpace`, `isAsciiSpace`, `trim`.
Key theorems: `isBlank_of_isWhitespace`, `trim_eq_self`.
-/
import EdgeFacts.Text.CodeRange

namespace EdgeFacts.Text

/-- The code points of blank characters. -/
def blankRanges : List (Nat × Nat) := [
  (0x9, 0xd), (0x1c, 0x20), (0x85, 0x85), (0xa0, 0xa0), (0x1680, 0x1680), (0x2000, 0x200a),
  (0x2028, 0x2029), (0x202f, 0x202f), (0x205f, 0x205f), (0x3000, 0x3000)]

/-- Whether the character is blank. -/
def isBlank (c : Char) : Bool := inRanges blankRanges c

/-- Whether the character is blank and no separator of files, groups, records or units. -/
def isSpace (c : Char) : Bool := isBlank c && !(0x1c ≤ c.toNat && c.toNat ≤ 0x1f)

/-- Whether the character is a blank of ASCII and no such separator. -/
def isAsciiSpace (c : Char) : Bool := isSpace c && c.toNat < 0x80

/-- The text without the characters of a class at its ends. -/
def trimOf (p : Char → Bool) (s : List Char) : List Char :=
  ((s.dropWhile p).reverse.dropWhile p).reverse

/-- The text without the blanks at its ends. -/
def trim (s : List Char) : List Char := trimOf isBlank s

/-- What core calls white space is blank. -/
theorem isBlank_of_isWhitespace (c : Char) (h : c.isWhitespace = true) : isBlank c = true := by
  simp only [Char.isWhitespace, Bool.or_eq_true, decide_eq_true_eq] at h
  rcases h with ((rfl | rfl) | rfl) | rfl <;> decide

/-- A text whose first and last characters are not blank is left alone. -/
theorem trim_eq_self {s : List Char} (first : ∀ c ∈ s.head?, isBlank c = false)
    (last : ∀ c ∈ s.getLast?, isBlank c = false) : trim s = s := by
  have keep : ∀ t : List Char, (∀ c ∈ t.head?, isBlank c = false) → t.dropWhile isBlank = t := by
    intro t h
    cases t with
    | nil => rfl
    | cons c r => simp [h c rfl]
  rw [trim, trimOf, keep s first, keep s.reverse (by simpa using last), List.reverse_reverse]

end EdgeFacts.Text
