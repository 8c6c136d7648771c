/-
# The tokens of a notation

How a shape's notation parts into tokens, said as a grammar: pieces with commas
between them, in brackets with blanks around them or without, where each piece is
blank or a token with blanks around it (`HasTokens`). Every text has one list of
tokens, the one that is read from it (`hasTokens_iff`): blanks are trimmed, one pair
of brackets is dropped and the rest is parted at the commas. A text without
brackets may begin with one or end with one, but not both; otherwise these are the
pair.

Key definitions: `Text.Blank`, `Text.Bare`, `Text.Words`, `Bracketed`, `HasTokens`.
Key theorems: `Text.exists_trim`, `Text.words_iff`, `hasTokens_join`, `hasTokens_iff`.
-/
import Mathlib.Data.List.Basic
import Mathlib.Data.List.TakeWhile
import EdgeFacts.Fact.Notation

namespace EdgeFacts

namespace Text

/-! ### Blanks at the ends -/

/-- Whether a text consists of blanks. -/
def Blank (s : List Char) : Prop := ∀ c ∈ s, isBlank c = true

theorem blank_nil : Blank [] := List.forall_mem_nil _

/-- Whether a text neither begins nor ends with a blank. -/
structure Bare (s : List Char) : Prop where
  first : ∀ c ∈ s.head?, isBlank c = false
  last : ∀ c ∈ s.getLast?, isBlank c = false

theorem bare_of_forall {s : List Char} (h : ∀ c ∈ s, isBlank c = false) : Bare s where
  first c hc := h c (List.mem_of_head? hc)
  last c hc := h c (List.mem_of_getLast? hc)

theorem Bare.trim {s : List Char} (h : Bare s) : Text.trim s = s := trim_eq_self h.first h.last

theorem Blank.trim {s : List Char} (h : Blank s) : Text.trim s = [] := by
  rw [Text.trim, trimOf, List.dropWhile_eq_nil_iff.2 h]
  rfl

theorem trim_padded {left right : List Char} (hl : Blank left) (hr : Blank right) (s : List Char) :
    trim (left ++ s ++ right) = trim s := by
  have hr' : ∀ c ∈ right.reverse, isBlank c = true := fun c hc => hr c (List.mem_reverse.1 hc)
  rw [trim, trimOf, trim, trimOf, List.append_assoc, List.dropWhile_append_of_pos hl, List.dropWhile_append]
  split
  · rename_i hempty
    rw [List.isEmpty_iff.1 hempty, List.dropWhile_eq_nil_iff.2 hr]
  · rw [List.reverse_append, List.dropWhile_append_of_pos hr']

theorem exists_trim (s : List Char) : ∃ left right, Blank left ∧ Blank right ∧ s = left ++ trim s ++ right := by
  refine ⟨s.takeWhile isBlank, ((s.dropWhile isBlank).reverse.takeWhile isBlank).reverse, ?_, ?_, ?_⟩
  · exact fun c hc => List.mem_takeWhile_imp hc
  · exact fun c hc => List.mem_takeWhile_imp (List.mem_reverse.1 hc)
  · rw [trim, trimOf, List.append_assoc, ← List.reverse_append, List.takeWhile_append_dropWhile,
      List.reverse_reverse, List.takeWhile_append_dropWhile]

theorem isBlank_head?_dropWhile {s : List Char} : ∀ c ∈ (s.dropWhile isBlank).head?, isBlank c = false := by
  intro c hc
  have hnot := List.head?_dropWhile_not isBlank s
  rw [Option.mem_def.1 hc] at hnot
  simpa using hnot

theorem bare_trim (s : List Char) : Bare (trim s) where
  first c hc := by
    obtain ⟨right, hright⟩ : ∃ right, s.dropWhile isBlank = trim s ++ right := by
      refine ⟨((s.dropWhile isBlank).reverse.takeWhile isBlank).reverse, ?_⟩
      rw [trim, trimOf, ← List.reverse_append, List.takeWhile_append_dropWhile, List.reverse_reverse]
    refine isBlank_head?_dropWhile (s := s) c ?_
    rw [hright, List.head?_append]
    exact Option.mem_def.2 (by rw [Option.mem_def.1 hc]; rfl)
  last c hc := by
    rw [trim, trimOf, List.getLast?_reverse] at hc
    exact isBlank_head?_dropWhile c hc

/-! ### Parts -/

variable {mark : Char}

theorem not_mem_of_mem_splitAt {s part : List Char} (h : part ∈ splitAt mark s) : mark ∉ part := by
  induction s generalizing part with
  | nil =>
    rw [splitAt, List.mem_singleton] at h
    simp [h]
  | cons c rest ih =>
    simp only [splitAt] at h
    split at h
    · rcases List.mem_cons.1 h with rfl | h
      · simp
      · exact ih h
    · rename_i hne
      split at h
      · rw [List.mem_singleton] at h
        simp [h, Ne.symm hne]
      · rename_i first others heq
        rcases List.mem_cons.1 h with rfl | h
        · have hfirst : mark ∉ first := ih (heq ▸ List.mem_cons_self)
          simp [hfirst, Ne.symm hne]
        · exact ih (heq ▸ List.mem_cons_of_mem _ h)

/-- The parts are those that the standard library cuts a list into. -/
theorem splitAt_eq_splitOn (s : List Char) : splitAt mark s = s.splitOn mark := by
  rw [← List.splitOn_intercalate mark (fun _ => not_mem_of_mem_splitAt) (splitAt_ne_nil mark s),
    intercalate_splitAt]

/-- Texts without the mark that are joined by it are parted again. -/
theorem splitAt_intercalate {parts : List (List Char)} (hmark : ∀ p ∈ parts, mark ∉ p) (hne : parts ≠ []) :
    splitAt mark ([mark].intercalate parts) = parts := by
  rw [splitAt_eq_splitOn, List.splitOn_intercalate mark hmark hne]

theorem splitAt_cons_of_ne {c : Char} (h : c ≠ mark) (s : List Char) :
    splitAt mark (c :: s) = (splitAt mark s).modifyHead (c :: ·) := by
  rw [splitAt, if_neg h]
  cases hs : splitAt mark s with
  | nil => exact absurd hs (splitAt_ne_nil mark s)
  | cons part parts => rfl

theorem splitAt_of_not_mem {s : List Char} (h : mark ∉ s) : splitAt mark s = [s] := by
  have hparts : splitAt mark ([mark].intercalate [s]) = [s] := splitAt_intercalate (by simpa using h) (by simp)
  rwa [List.intercalate_singleton] at hparts

/-- Without the mark, what is put in front of a text goes to its first part. -/
theorem splitAt_append_left {left : List Char} (h : mark ∉ left) (s : List Char) :
    splitAt mark (left ++ s) = (splitAt mark s).modifyHead (left ++ ·) := by
  induction left with
  | nil => cases hs : splitAt mark s <;> simp [hs]
  | cons c left ih =>
    rw [List.mem_cons, not_or] at h
    rw [List.cons_append, splitAt_cons_of_ne (Ne.symm h.1), ih h.2]
    cases splitAt mark s <;> rfl

/-- Without the mark, what is put behind a text goes to its last part. -/
theorem splitAt_append_right {right : List Char} (h : mark ∉ right) (s : List Char) :
    ∃ parts part, splitAt mark s = parts ++ [part] ∧ splitAt mark (s ++ right) = parts ++ [part ++ right] := by
  induction s with
  | nil => exact ⟨[], [], rfl, splitAt_of_not_mem h⟩
  | cons c s ih =>
    obtain ⟨parts, part, hs, hright⟩ := ih
    by_cases hc : c = mark
    · refine ⟨[] :: parts, part, ?_, ?_⟩
      · rw [splitAt, if_pos hc, hs, List.cons_append]
      · rw [List.cons_append, splitAt, if_pos hc, hright, List.cons_append]
    · rw [List.cons_append, splitAt_cons_of_ne hc, splitAt_cons_of_ne hc, hs, hright]
      cases parts with
      | nil => exact ⟨[], c :: part, rfl, rfl⟩
      | cons first parts => exact ⟨(c :: first) :: parts, part, rfl, rfl⟩

/-! ### Words -/

/-- Whether pieces of a text hold words: each piece is blank, or a word with blanks around it. -/
inductive Words : List (List Char) → List (List Char) → Prop where
  | nil : Words [] []
  | blank {piece : List Char} {pieces words : List (List Char)} (blank : Blank piece)
      (rest : Words pieces words) : Words (piece :: pieces) words
  | word {left word right : List Char} {pieces words : List (List Char)} (left_blank : Blank left)
      (right_blank : Blank right) (bare : Bare word) (nonempty : word ≠ []) (rest : Words pieces words) :
      Words ((left ++ word ++ right) :: pieces) (word :: words)

/-- The words of pieces are what trimming leaves of them, if that is anything. -/
theorem words_iff : ∀ {pieces words : List (List Char)},
    Words pieces words ↔ (pieces.map trim).filter (fun t => !t.isEmpty) = words
  | [], words => by
    constructor
    · rintro ⟨⟩
      rfl
    · rintro rfl
      exact .nil
  | piece :: pieces, words => by
    rw [List.map_cons]
    constructor
    · rintro (_ | ⟨hblank, hrest⟩ | ⟨hleft, hright, hbare, hne, hrest⟩)
      · rw [hblank.trim, List.filter_cons_of_neg (by simp), words_iff.1 hrest]
      · rw [trim_padded hleft hright, hbare.trim, List.filter_cons_of_pos (by simpa using hne), words_iff.1 hrest]
    · rintro rfl
      obtain ⟨left, right, hleft, hright, heq⟩ := exists_trim piece
      by_cases hempty : trim piece = []
      · rw [hempty, List.filter_cons_of_neg (by simp)]
        rw [hempty, List.append_nil] at heq
        refine .blank ?_ (words_iff.2 rfl)
        rw [heq]
        exact fun c hc => (List.mem_append.1 hc).elim (hleft c) (hright c)
      · rw [List.filter_cons_of_pos (by simpa using hempty)]
        have hword := Words.word hleft hright (bare_trim piece) hempty (words_iff.2 rfl : Words pieces _)
        rwa [← heq] at hword

theorem words_self : ∀ {words : List (List Char)}, (∀ w ∈ words, w ≠ [] ∧ ∀ c ∈ w, isBlank c = false) →
    Words words words
  | [], _ => .nil
  | word :: words, h => by
    obtain ⟨hne, hword⟩ := h word (.head _)
    have hall := Words.word blank_nil blank_nil (bare_of_forall hword) hne (words_self fun w hw => h w (.tail _ hw))
    rwa [List.append_nil] at hall

theorem not_mem_of_blank {s : List Char} (h : Blank s) {c : Char} (hc : isBlank c = false) : c ∉ s := by
  intro hmem
  rw [h c hmem] at hc
  cases hc

/-- Blanks at the ends of a text make no difference to its words. -/
theorem words_splitAt_trim (hmark : isBlank mark = false) (s : List Char) :
    ((splitAt mark s).map trim).filter (fun t => !t.isEmpty) =
      ((splitAt mark (trim s)).map trim).filter (fun t => !t.isEmpty) := by
  -- The blanks are at the ends of the first part and of the last, which are trimmed themselves.
  obtain ⟨left, right, hleft, hright, heq⟩ := exists_trim s
  generalize trim s = body at heq
  subst heq
  obtain ⟨parts, part, hbody, hparts⟩ := splitAt_append_right (not_mem_of_blank hright hmark) (left ++ body)
  have hpart : trim (part ++ right) = trim part := trim_padded blank_nil hright part
  rw [hparts, List.map_append, List.map_singleton, hpart, ← List.map_singleton, ← List.map_append, ← hbody,
    splitAt_append_left (not_mem_of_blank hleft hmark)]
  cases splitAt mark body with
  | nil => rfl
  | cons first others =>
    have hfirst : trim (left ++ first) = trim first := by
      have hpadded := trim_padded hleft blank_nil first
      rwa [List.append_nil] at hpadded
    rw [List.modifyHead_cons, List.map_cons, hfirst, List.map_cons]

end Text

/-! ### Notations of shapes -/

open Text

/-- Whether a text stands in brackets, with blanks around them. -/
def Bracketed (s : List Char) : Prop :=
  ∃ left inner right, Blank left ∧ Blank right ∧ s = left ++ ('[' :: inner ++ [']']) ++ right

/-- Whether a text has the given tokens: it is pieces that hold them, with commas between the
pieces, in brackets or without. -/
inductive HasTokens : List Char → List (List Char) → Prop where
  | bracketed {left right : List Char} {pieces tokens : List (List Char)} (left_blank : Blank left)
      (right_blank : Blank right) (nonempty : pieces ≠ []) (pieces_parted : ∀ p ∈ pieces, ',' ∉ p)
      (words : Words pieces tokens) :
      HasTokens (left ++ ('[' :: [','].intercalate pieces ++ [']']) ++ right) tokens
  | bare {pieces tokens : List (List Char)} (nonempty : pieces ≠ []) (pieces_parted : ∀ p ∈ pieces, ',' ∉ p)
      (not_bracketed : ¬ Bracketed ([','].intercalate pieces)) (words : Words pieces tokens) :
      HasTokens ([','].intercalate pieces) tokens

/-- Tokens that are joined by commas in brackets are the tokens of what this makes. -/
theorem hasTokens_join {tokens : List (List Char)}
    (h : ∀ t ∈ tokens, t ≠ [] ∧ ∀ c ∈ t, isBlank c = false ∧ c ≠ ',') :
    HasTokens ('[' :: [','].intercalate tokens ++ [']']) tokens := by
  have join : ∀ {pieces : List (List Char)}, pieces ≠ [] → (∀ p ∈ pieces, ',' ∉ p) → Words pieces tokens →
      HasTokens ('[' :: [','].intercalate pieces ++ [']']) tokens := by
    intro pieces hne hparted hwords
    have hall := HasTokens.bracketed blank_nil blank_nil hne hparted hwords
    rwa [List.append_nil] at hall
  by_cases hempty : tokens = []
  · -- Nothing joined is one empty piece.
    subst hempty
    have hblank := join (List.cons_ne_nil [] []) (by decide) (.blank blank_nil .nil)
    exact hblank
  · exact join hempty (fun t ht hc => ((h t ht).2 ',' hc).2 rfl)
      (words_self fun t ht => ⟨(h t ht).1, fun c hc => ((h t ht).2 c hc).1⟩)

theorem trim_brackets {left right : List Char} (hl : Blank left) (hr : Blank right) (inner : List Char) :
    trim (left ++ ('[' :: inner ++ [']']) ++ right) = '[' :: inner ++ [']'] := by
  rw [trim_padded hl hr]
  refine trim_eq_self ?_ ?_
  · rintro c ⟨⟩
    rfl
  · intro c hc
    rw [List.getLast?_append] at hc
    cases hc
    rfl

theorem dropBrackets_brackets (inner : List Char) : ShapeFact.dropBrackets ('[' :: inner ++ [']']) = inner := by
  simp [ShapeFact.dropBrackets]

theorem dropBrackets_of_bare {s : List Char} (h : ∀ inner, s ≠ '[' :: inner ++ [']']) :
    ShapeFact.dropBrackets s = s := by
  unfold ShapeFact.dropBrackets
  split
  · rename_i rest
    split
    · rename_i hlast
      refine absurd ?_ (h rest.dropLast)
      rw [List.cons_append, List.dropLast_append_getLast? _ hlast]
    · rfl
  · rfl

/-- **Every text has one list of tokens**, the one that is read from it. -/
theorem hasTokens_iff {text : String} {tokens : List (List Char)} :
    HasTokens text.toList tokens ↔ ShapeFact.tokens text = tokens := by
  unfold ShapeFact.tokens
  generalize text.toList = s
  constructor
  · rintro (⟨hl, hr, hne, hparted, hwords⟩ | ⟨hne, hparted, hbare, hwords⟩)
    · rw [trim_brackets hl hr, dropBrackets_brackets, splitAt_intercalate hparted hne, words_iff.1 hwords]
    · rename_i pieces
      -- Were the text in brackets when trimmed, it would stand in brackets with blanks around them.
      have hnone : ∀ inner, trim ([','].intercalate pieces) ≠ '[' :: inner ++ [']'] := by
        intro inner heq
        obtain ⟨left, right, hl, hr, hs⟩ := exists_trim ([','].intercalate pieces)
        exact hbare ⟨left, inner, right, hl, hr, heq ▸ hs⟩
      rw [dropBrackets_of_bare hnone, ← words_splitAt_trim rfl, splitAt_intercalate hparted hne, words_iff.1 hwords]
  · rintro rfl
    by_cases hin : ∃ inner, trim s = '[' :: inner ++ [']']
    · obtain ⟨inner, hinner⟩ := hin
      obtain ⟨left, right, hl, hr, hs⟩ := exists_trim s
      rw [hinner] at hs
      have htokens := HasTokens.bracketed hl hr (splitAt_ne_nil ',' inner) (fun _ => not_mem_of_mem_splitAt)
        (words_iff.2 rfl)
      rwa [intercalate_splitAt, ← hs, ← dropBrackets_brackets inner, ← hinner] at htokens
    · have hbare : ¬ Bracketed s := by
        rintro ⟨left, inner, right, hl, hr, rfl⟩
        exact hin ⟨inner, trim_brackets hl hr inner⟩
      have htokens := HasTokens.bare (splitAt_ne_nil ',' s) (fun _ => not_mem_of_mem_splitAt)
        ((intercalate_splitAt ',' s).symm ▸ hbare) (words_iff.2 rfl)
      rw [intercalate_splitAt, words_splitAt_trim rfl] at htokens
      rwa [dropBrackets_of_bare fun inner heq => hin ⟨inner, heq⟩]

end EdgeFacts
