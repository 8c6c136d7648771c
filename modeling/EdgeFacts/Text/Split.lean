/-
# Parting text at a character

Cuts a text at each occurrence of a character, or at the first one.

Key definitions: `splitAt`, `cutAt?`.
Key theorems: `intercalate_splitAt`, `eq_of_cutAt?`.
-/

namespace EdgeFacts.Text

/-- Splits a text at each occurrence of a character. -/
def splitAt (mark : Char) : List Char → List (List Char)
  | [] => [[]]
  | c :: rest =>
    if c = mark then [] :: splitAt mark rest
    else match splitAt mark rest with
      | [] => [[c]]
      | part :: parts => (c :: part) :: parts

/-- What stands before and behind the first occurrence of a character. -/
def cutAt? (mark : Char) : List Char → Option (List Char × List Char)
  | [] => none
  | c :: rest =>
    if c = mark then some ([], rest)
    else (cutAt? mark rest).map fun (before, behind) => (c :: before, behind)

theorem splitAt_ne_nil (mark : Char) (s : List Char) : splitAt mark s ≠ [] := by
  cases s with
  | nil => simp [splitAt]
  | cons c rest =>
    simp only [splitAt]
    split
    · simp
    · split <;> simp

/-- The parts make up the text again. -/
theorem intercalate_splitAt (mark : Char) (s : List Char) :
    [mark].intercalate (splitAt mark s) = s := by
  induction s with
  | nil => simp [splitAt, List.intercalate]
  | cons c rest ih =>
    simp only [splitAt]
    have nonempty := splitAt_ne_nil mark rest
    revert ih nonempty
    cases splitAt mark rest with
    | nil => simp
    | cons part parts =>
      intro ih _
      by_cases h : c = mark
      · simpa [h, List.intercalate, List.intersperse] using ih
      · cases parts <;> simpa [h, List.intercalate, List.intersperse] using ih

/-- The text is cut at the first occurrence of the character. -/
theorem eq_of_cutAt? {mark : Char} {s before behind : List Char}
    (h : cutAt? mark s = some (before, behind)) : s = before ++ mark :: behind ∧ mark ∉ before := by
  induction s generalizing before with
  | nil => simp [cutAt?] at h
  | cons c rest ih =>
    simp only [cutAt?] at h
    split at h
    · next heq =>
      simp only [Option.some.injEq, Prod.mk.injEq] at h
      obtain ⟨rfl, rfl⟩ := h
      simp [heq]
    · next hne =>
      obtain ⟨⟨b, e⟩, hb, he⟩ := Option.map_eq_some_iff.1 h
      simp only [Prod.mk.injEq] at he
      obtain ⟨rfl, rfl⟩ := he
      obtain ⟨hr, hm⟩ := ih hb
      exact ⟨by simp [hr], by simp [hm, Ne.symm hne]⟩

end EdgeFacts.Text
