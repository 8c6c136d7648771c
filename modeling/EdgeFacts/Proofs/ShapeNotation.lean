/-
# The language of shapes

Which texts `ShapeFact.parse` reads, and as what. Tokens write a shape if each
writes a dimension, which a low line, an `S` and a numeral do, but the last may be
two points, which open the shape (`ShapeFact.Written`). A text is read exactly as
what its tokens write, so texts with the same tokens are read alike, and one whose
tokens write nothing is refused as unreadable (`ShapeFact.parse_exact`).

The notation of a shape itself is such a text, and is read as the shape again if
no extent has too many digits (`ShapeFact.parse_text`).

Key definitions: `Text.Numeral`, `DimFact.Written`, `ShapeFact.Written`,
`Failure.Unreadable`, `ShapeFact.Legible`.
Key theorems: `DimFact.parse_eq_ok_iff`, `ShapeFact.parse_eq_ok_iff`,
`ShapeFact.parse_text`, `ShapeFact.parse_exact`.
-/
import Mathlib.Tactic.IntervalCases
import EdgeFacts.Proofs.Result
import EdgeFacts.Proofs.Tokens

namespace EdgeFacts

open Text

/-! ### Numerals -/

/-- Whether a text writes a number: by digits with a place value, of any script, and no more of
them than may be read. -/
def Text.Numeral (s : List Char) (n : Nat) : Prop :=
  ∃ digits, List.Forall₂ (fun c d => digitValue? c = some d) s digits ∧
    0 < s.length ∧ s.length ≤ maxDigits ∧ ofDigits digits = n

theorem Text.readWhole?_eq_some_iff {s : List Char} {n : Nat} : readWhole? s = some n ↔ Numeral s n := by
  simp only [readWhole?, Numeral, Bool.or_eq_true, List.isEmpty_iff, decide_eq_true_eq]
  split
  · rename_i h
    constructor
    · rintro ⟨⟩
    · rintro ⟨_, _, hpos, hmax, _⟩
      rcases h with rfl | h
      · exact absurd hpos (Nat.lt_irrefl 0)
      · exact absurd h (Nat.not_lt.2 hmax)
  · rename_i h
    rw [not_or, Nat.not_lt] at h
    simp only [Option.bind_eq_bind, Option.bind_eq_some_iff, Option.pure_def, Option.some.injEq,
      mapM_eq_some_iff, List.length_pos_of_ne_nil h.1, h.2, true_and]

theorem Text.Numeral.isDigit {s : List Char} {n : Nat} (h : Numeral s n) : ∀ c ∈ s, isDigit c = true := by
  obtain ⟨digits, hdigits, -⟩ := h
  intro c hc
  obtain ⟨d, -, hd⟩ := exists_of_forall₂ hdigits.flip c hc
  rw [Text.isDigit, hd]
  rfl

/-- The digits of ASCII. -/
def Text.asciiDigits : List Char := ['0', '1', '2', '3', '4', '5', '6', '7', '8', '9']

theorem Text.mem_asciiDigits {c : Char} (h : c.isDigit = true) : c ∈ asciiDigits := by
  obtain ⟨hl, hu⟩ : 48 ≤ c.toNat ∧ c.toNat ≤ 57 := Char.isDigit_iff_toNat.1 h
  rw [← Char.ofNat_toNat c]
  generalize c.toNat = n at hl hu
  interval_cases n <;> decide

/-- What holds of all ASCII digits. -/
theorem Text.of_isDigit {p : Char → Bool} (hp : asciiDigits.all p = true) {c : Char} (h : c.isDigit = true) :
    p c = true :=
  List.all_eq_true.1 hp c (mem_asciiDigits h)

theorem Text.isDigit_of_mem_toString {n : Nat} {c : Char} (h : c ∈ (toString n).toList) : c.isDigit = true := by
  rw [Nat.toString_eq_repr, Nat.toList_repr] at h
  exact Nat.isDigit_of_mem_toDigits (by decide) (by decide) h

theorem Text.toString_ne_nil (n : Nat) : (toString n).toList ≠ [] := by
  rw [Nat.toString_eq_repr, Nat.toList_repr]
  exact Nat.toDigits_ne_nil

theorem Text.digitValue?_of_isDigit {c : Char} (h : c.isDigit = true) :
    digitValue? c = some (c.toNat - '0'.toNat) := by
  have hvalue : asciiDigits.all (fun c => digitValue? c = some (c.toNat - '0'.toNat)) = true := by decide
  simpa using of_isDigit hvalue h

/-- A number's own digits write it, unless they are too many. -/
theorem Text.numeral_toString {n : Nat} (h : (toString n).length ≤ maxDigits) : Numeral (toString n).toList n := by
  refine ⟨(toString n).toList.map fun c => c.toNat - '0'.toNat, ?_, ?_, ?_, ?_⟩
  · rw [List.forall₂_map_right_iff, List.forall₂_same]
    exact fun c hc => digitValue?_of_isDigit (isDigit_of_mem_toString hc)
  · exact List.length_pos_of_ne_nil (toString_ne_nil n)
  · rwa [String.length_toList]
  · rw [ofDigits, List.foldl_map, Nat.toString_eq_repr, Nat.toList_repr]
    exact Nat.ofDigitChars_toDigits (by decide) (by decide)

/-! ### Dimensions -/

namespace DimFact

/-- The dimension that a token writes. -/
inductive Written : List Char → DimFact → Prop where
  | any : Written ['_'] .any
  | streamed : Written ['S'] .streamed
  | known {token : List Char} {n : Nat} (numeral : Numeral token n) : Written token (.known n)

theorem parseExtent_eq_ok_iff {token : List Char} {d : DimFact} :
    parseExtent token = .ok d ↔ ∃ n, Numeral token n ∧ d = .known n := by
  simp only [parseExtent, ← readWhole?_eq_some_iff]
  cases readWhole? token with
  | some n => simp [eq_comm]
  | none =>
    dsimp only
    split <;> simp

/-- A token is read as the dimension that it writes. -/
theorem parse_eq_ok_iff {text : String} {token : List Char} {d : DimFact} :
    parse text token = .ok d ↔ Written token d := by
  constructor
  · intro h
    unfold parse at h
    split at h
    · rename_i heq
      cases heq
      cases h
      exact .any
    · split at h
      · rename_i heq
        cases heq
        cases h
        exact .streamed
      · split at h
        · obtain ⟨n, hn, rfl⟩ := parseExtent_eq_ok_iff.1 h
          exact .known hn
        · cases h
  · rintro (_ | _ | hn)
    · rfl
    · rfl
    · have hany : token ≠ ['_'] := by
        rintro rfl
        exact absurd (hn.isDigit '_' (.head _)) (by decide)
      have hstreamed : token ≠ ['S'] := by
        rintro rfl
        exact absurd (hn.isDigit 'S' (.head _)) (by decide)
      have hdigits : (!token.isEmpty && token.all Text.isDigit) = true := by
        obtain ⟨-, -, hpos, -⟩ := id hn
        rw [Bool.and_eq_true, List.all_eq_true]
        exact ⟨by simpa using List.ne_nil_of_length_pos hpos, hn.isDigit⟩
      rw [parse, if_neg hany, if_neg hstreamed, if_pos hdigits, parseExtent_eq_ok_iff]
      exact ⟨_, hn, rfl⟩

end DimFact

/-! ### Unreadable texts -/

/-- The failures that tell of a text which cannot be read. -/
inductive Failure.Unreadable : Failure → Prop where
  | input (fault : InputFault) : Unreadable (.input fault)
  | numeral (token : String) : Unreadable (.numeral token)
  | longNumeral (digits : Nat) : Unreadable (.longNumeral digits)

theorem DimFact.unreadable_of_parseExtent {token : List Char} {failure : Failure}
    (h : parseExtent token = .error failure) : failure.Unreadable := by
  unfold parseExtent at h
  cases hread : readWhole? token with
  | some n =>
    rw [hread] at h
    cases h
  | none =>
    rw [hread] at h
    dsimp only at h
    split at h
    · cases h
      exact .longNumeral _
    · cases h
      exact .numeral _

theorem DimFact.unreadable_of_parse {text : String} {token : List Char} {failure : Failure}
    (h : parse text token = .error failure) : failure.Unreadable := by
  unfold parse at h
  split at h
  · cases h
  · split at h
    · cases h
    · split at h
      · exact unreadable_of_parseExtent h
      · cases h
        exact .input _

/-! ### Shapes -/

namespace ShapeFact

/-- The shape that tokens write. -/
inductive Written : List (List Char) → ShapeFact → Prop where
  | closed {tokens : List (List Char)} {dims : List DimFact}
      (written : List.Forall₂ DimFact.Written tokens dims) : Written tokens (.closed dims)
  | starting {tokens : List (List Char)} {dims : List DimFact}
      (written : List.Forall₂ DimFact.Written tokens dims) : Written (tokens ++ [['.', '.']]) (.starting dims)

theorem getLast?_ne_points {tokens : List (List Char)} {dims : List DimFact}
    (h : List.Forall₂ DimFact.Written tokens dims) : tokens.getLast? ≠ some ['.', '.'] := by
  intro hlast
  obtain ⟨d, -, hd⟩ := exists_of_forall₂ h.flip _ (List.mem_of_getLast? hlast)
  cases hd with
  | known hn => exact absurd (hn.isDigit '.' (.head _)) (by decide)

theorem mapM_parse_eq_ok_iff {text : String} {tokens : List (List Char)} {dims : List DimFact} :
    tokens.mapM (DimFact.parse text) = .ok dims ↔ List.Forall₂ DimFact.Written tokens dims := by
  simp only [mapM_eq_ok_iff, DimFact.parse_eq_ok_iff]

/-- A text is read as the shape that its tokens write. -/
theorem parse_eq_ok_iff {text : String} {s : ShapeFact} : parse text = .ok s ↔ Written (tokens text) s := by
  -- Two points at the end are no dimension, so the tokens tell which of the two readings is taken.
  unfold parse
  generalize tokens text = parts
  constructor
  · intro h
    dsimp only at h
    split at h
    · rename_i hlast
      obtain ⟨dims, hdims, hs⟩ := bind_eq_ok_iff.1 h
      cases hs
      exact List.dropLast_append_getLast? _ hlast ▸ .starting (mapM_parse_eq_ok_iff.1 hdims)
    · obtain ⟨dims, hdims, hs⟩ := bind_eq_ok_iff.1 h
      cases hs
      exact .closed (mapM_parse_eq_ok_iff.1 hdims)
  · rintro (hdims | hdims)
    · rw [if_neg (getLast?_ne_points hdims), mapM_parse_eq_ok_iff.2 hdims]
      rfl
    · rw [if_pos List.getLast?_concat, List.dropLast_concat, mapM_parse_eq_ok_iff.2 hdims]
      rfl

/-- Whether the extents that are known have no more digits than may be read. -/
def Legible (s : ShapeFact) : Prop := ∀ n, DimFact.known n ∈ s.dims → (toString n).length ≤ maxDigits

theorem written_parts {s : ShapeFact} (h : s.Legible) : Written (s.parts.map String.toList) s := by
  obtain ⟨dims, isOpen⟩ := s
  have hdims : List.Forall₂ DimFact.Written (dims.map fun d => d.text.toList) dims := by
    rw [List.forall₂_map_left_iff, List.forall₂_same]
    intro d hd
    cases d with
    | any => exact .any
    | streamed => exact .streamed
    | known n => exact .known (numeral_toString (h n hd))
  rw [parts, List.map_append, List.map_map]
  cases isOpen with
  | false =>
    rw [if_neg Bool.false_ne_true, List.map_nil, List.append_nil]
    exact .closed hdims
  | true => exact .starting hdims

/-- Whether a character parts and ends nothing in a notation. -/
def isPlain (c : Char) : Bool := !isBlank c && c ≠ ',' && c ≠ ']'

theorem isPlain_iff {c : Char} : isPlain c = true ↔ isBlank c = false ∧ c ≠ ',' ∧ c ≠ ']' := by
  simp [isPlain, and_assoc]

/-- The parts of a notation have no blanks, commas and brackets in them. -/
theorem parts_plain {s : ShapeFact} {part : String} (h : part ∈ s.parts) :
    part.toList ≠ [] ∧ part.toList.all isPlain = true := by
  rcases List.mem_append.1 h with h | h
  · obtain ⟨d, -, rfl⟩ := List.mem_map.1 h
    cases d with
    | any => exact ⟨by decide, by decide⟩
    | streamed => exact ⟨by decide, by decide⟩
    | known n =>
      have hplain : asciiDigits.all isPlain = true := by decide
      exact ⟨toString_ne_nil n, List.all_eq_true.2 fun c hc => of_isDigit hplain (isDigit_of_mem_toString hc)⟩
  · split at h
    · rw [List.mem_singleton.1 h]
      exact ⟨by decide, by decide⟩
    · cases h

theorem toList_text (s : ShapeFact) :
    s.text.toList = '[' :: [','].intercalate (s.parts.map String.toList) ++ [']'] := by
  rw [text, String.toList_append, String.toList_append, String.toList_intercalate]
  rfl

theorem hasTokens_text (s : ShapeFact) : HasTokens s.text.toList (s.parts.map String.toList) := by
  rw [toList_text]
  refine hasTokens_join fun t ht => ?_
  obtain ⟨part, hpart, rfl⟩ := List.mem_map.1 ht
  obtain ⟨hne, hplain⟩ := parts_plain hpart
  refine ⟨hne, fun c hc => ?_⟩
  obtain ⟨hblank, hcomma, -⟩ := isPlain_iff.1 (List.all_eq_true.1 hplain c hc)
  exact ⟨hblank, hcomma⟩

theorem parse_text {s : ShapeFact} (h : s.Legible) : parse s.text = .ok s := by
  rw [parse_eq_ok_iff, hasTokens_iff.1 (hasTokens_text s)]
  exact written_parts h

theorem unreadable_of_parse {text : String} {failure : Failure} (h : parse text = .error failure) :
    failure.Unreadable := by
  have dims : ∀ {parts : List (List Char)} {k : List DimFact → ShapeFact},
      (parts.mapM (DimFact.parse text) >>= fun dims => pure (k dims)) = .error failure → failure.Unreadable := by
    intro parts k hparts
    obtain ⟨token, -, htoken⟩ := exists_error_of_mapM (map_eq_error_iff.1 hparts)
    exact DimFact.unreadable_of_parse htoken
  unfold parse at h
  dsimp only at h
  split at h
  · exact dims h
  · exact dims h

/-- **Which texts are read as a shape, and as which.** A text has one list of tokens. It is read
as the shape that these write, and refused as unreadable if they write none; so it is read like any
other text with these tokens, however the blanks, the empty pieces and the brackets stand. -/
theorem parse_exact (text : String) :
    ∃ tokens, (∀ others, HasTokens text.toList others ↔ others = tokens) ∧
      (∀ s, parse text = .ok s ↔ Written tokens s) ∧
      ((∃ s, parse text = .ok s) ∨ ∃ failure, parse text = .error failure ∧ failure.Unreadable) ∧
      ∀ again : String, HasTokens again.toList tokens → ∀ s, parse again = .ok s ↔ parse text = .ok s := by
  refine ⟨tokens text, fun others => ?_, fun s => parse_eq_ok_iff, ?_, ?_⟩
  · rw [hasTokens_iff, eq_comm]
  · cases h : parse text with
    | ok s => exact .inl ⟨s, rfl⟩
    | error failure => exact .inr ⟨failure, rfl, unreadable_of_parse h⟩
  · intro again hagain s
    rw [parse_eq_ok_iff, parse_eq_ok_iff, hasTokens_iff.1 hagain]

/-- A shape with blanks, empty pieces and brackets is read as the shape without them. -/
theorem padded_shape_read : parse " [ 1 ,, _ , .. ] " = .ok (.starting [.known 1, .any]) := by
  obtain ⟨tokens, htokens, -, -, hagain⟩ := parse_exact "1,_,.."
  have hsame : HasTokens " [ 1 ,, _ , .. ] ".toList tokens := by
    rw [← (htokens _).1 (hasTokens_iff.2 rfl)]
    exact hasTokens_iff.2 rfl
  exact (hagain _ hsame _).2 rfl

end ShapeFact

end EdgeFacts
