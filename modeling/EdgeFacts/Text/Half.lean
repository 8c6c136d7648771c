/-
# Halves of surrogate pairs

Text in UTF-16 units may hold a half of a surrogate pair by itself, which is no
character. A private character with the same last digits stands for it, so that
it can be written back as it was read.

Key definitions: `ofHalf`, `half?`.
Key theorems: `half?_ofHalf`.
-/

namespace EdgeFacts.Text

/-- Whether a UTF-16 unit is a half of a surrogate pair. -/
def isHalf (unit : Nat) : Bool := 0xd800 ≤ unit && unit < 0xe000

/-- The character for a UTF-16 unit; for a half it is a private one. -/
def ofHalf (unit : Nat) : Char := Char.ofNat (if isHalf unit then 0x100000 + unit else unit)

/-- The half that a character stands for. -/
def half? (c : Char) : Option Nat :=
  if isHalf (c.toNat - 0x100000) then some (c.toNat - 0x100000) else none

theorem half?_ofHalf {unit : Nat} (h : isHalf unit = true) : half? (ofHalf unit) = some unit := by
  have bounds := h
  simp only [isHalf, Bool.and_eq_true, decide_eq_true_eq] at bounds
  have valid : (0x100000 + unit).isValidChar := by
    right
    omega
  have value : (ofHalf unit).toNat = 0x100000 + unit := by
    rw [ofHalf, if_pos h, Char.ofNat, dif_pos valid]
    rfl
  rw [half?, value, Nat.add_sub_cancel_left, if_pos h]

end EdgeFacts.Text
