/-
# Terminal styles

A terminal changes its style on an escape character, a bracket, digits with
semicolons or question marks, and a letter. Output that is no terminal's goes
without such sequences.

Key definitions: `dropStyles`.
Key theorems: `dropStyles_eq_self`.
-/

namespace EdgeFacts.Text

/-- The character that begins a sequence. -/
def escape : Char := '\x1b'

/-- Whether the character is part of what a sequence asks for. -/
def isParameter (c : Char) : Bool := c.isDigit || c = ';' || c = '?'

/-- What stands behind a sequence, given what stands behind its escape character. -/
def behindStyle? : List Char → Option (List Char)
  | '[' :: rest =>
    match rest.dropWhile isParameter with
    | c :: behind => if c.isAlpha then some behind else none
    | [] => none
  | _ => none

theorem length_of_behindStyle? {s behind : List Char} (h : behindStyle? s = some behind) :
    behind.length < s.length := by
  match s with
  | [] => simp [behindStyle?] at h
  | c :: rest =>
    unfold behindStyle? at h
    split at h
    · next rest' heq =>
      simp only [List.cons.injEq] at heq
      obtain ⟨-, rfl⟩ := heq
      have := (List.dropWhile_sublist (l := rest) isParameter).length_le
      split at h
      · next d tail hd =>
        split at h
        · simp only [Option.some.injEq] at h
          subst h
          simp only [hd, List.length_cons] at this ⊢
          omega
        · simp at h
      · simp at h
    · simp at h

/-- The text without sequences that change the style. -/
def dropStyles : List Char → List Char
  | [] => []
  | c :: rest =>
    if c = escape then
      match _h : behindStyle? rest with
      | some behind => dropStyles behind
      | none => c :: dropStyles rest
    else c :: dropStyles rest
termination_by s => s.length
decreasing_by
  · have := length_of_behindStyle? _h
    simp only [List.length_cons]; omega
  all_goals simp

/-- A text without the escape character is left alone. -/
theorem dropStyles_eq_self {s : List Char} (h : escape ∉ s) : dropStyles s = s := by
  induction s with
  | nil => simp [dropStyles]
  | cons c s ih =>
    simp only [List.mem_cons, not_or] at h
    rw [dropStyles, if_neg (Ne.symm h.1), ih h.2]

end EdgeFacts.Text
