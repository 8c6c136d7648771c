/-
# Facts in their own notation

What `TensorFact.parse` makes of the notation of a fact. The shape is read again
(`ShapeFact.parse_text`), and so is a datatype whose name is listed as a spelling; every
other name is refused (`DType.nameRead`). A value stands behind the shape, where nothing
may stand. So the notation is read as the fact itself or refused, and never misread
(`TensorFact.roundTrip`).

Key definitions: `TensorFact.valueText`.
Key theorems: `TensorFact.splitNotation?_name`, `TensorFact.parse_text_cases`, `TensorFact.roundTrip`.
-/
import EdgeFacts.Proofs.DTypeName

namespace EdgeFacts

open Text

/-! ### A name and brackets -/

theorem Text.isBlank_eq_false_of_isNameStart {c : Char} (h : isNameStart c = true) : isBlank c = false := by
  have hcode : (65 ≤ c.toNat ∧ c.toNat ≤ 90) ∨ (97 ≤ c.toNat ∧ c.toNat ≤ 122) ∨ c.toNat = 95 := by
    rw [isNameStart, Bool.or_eq_true, decide_eq_true_eq] at h
    rcases h with h | rfl
    · rcases (Bool.or_eq_true _ _).mp h with h | h
      · exact .inl (of_decide_eq_true h)
      · obtain ⟨hlow, hhigh⟩ := (Bool.and_eq_true _ _).mp h
        exact .inr (.inl ⟨of_decide_eq_true hlow, of_decide_eq_true hhigh⟩)
    · exact .inr (.inr rfl)
  simp only [isBlank, inRanges, blankRanges, List.any_cons, List.any_nil, Bool.or_eq_false_iff,
    Bool.and_eq_false_iff, decide_eq_false_iff_not, and_true]
  omega

namespace TensorFact

theorem splitNotation?_name {name inner : List Char} (hname : isName name = true) (hinner : ']' ∉ inner)
    (behind : List Char) :
    splitNotation? (name ++ '[' :: (inner ++ ']' :: behind)) =
      if behind.all isBlank then some (some name, some ('[' :: inner ++ [']'])) else none := by
  cases name with
  | nil => cases hname
  | cons c rest =>
    rw [isName, Bool.and_eq_true, List.all_eq_true] at hname
    obtain ⟨hstart, hrest⟩ := hname
    -- The name goes as far as word characters do, which a bracket is not; the shape to its bracket.
    have hfirst : ∀ s, (c :: s).dropWhile isBlank = c :: s := fun s =>
      List.dropWhile_cons_of_neg (by simp [isBlank_eq_false_of_isNameStart hstart])
    have hbracket : ¬ isWord '[' = true := by decide +kernel
    have htake : (rest ++ '[' :: (inner ++ ']' :: behind)).takeWhile isWord = rest := by
      rw [List.takeWhile_append_of_pos hrest, List.takeWhile_cons_of_neg hbracket, List.append_nil]
    have hdrop : (rest ++ '[' :: (inner ++ ']' :: behind)).dropWhile isWord = '[' :: (inner ++ ']' :: behind) := by
      rw [List.dropWhile_append_of_pos hrest, List.dropWhile_cons_of_neg hbracket]
    have hopen : ('[' :: (inner ++ ']' :: behind)).dropWhile isBlank = '[' :: (inner ++ ']' :: behind) := rfl
    have hshape : (inner ++ ']' :: behind).takeWhile (· ≠ ']') = inner := by
      have hall : ∀ c ∈ inner, decide (c ≠ ']') = true := fun c hc => decide_eq_true fun h => hinner (h ▸ hc)
      rw [List.takeWhile_append_of_pos hall, List.takeWhile_cons_of_neg (by decide), List.append_nil]
    have hparts : '[' :: (inner ++ ']' :: behind) = '[' :: (inner ++ [']']) ++ behind := by simp
    simp only [splitNotation?, List.cons_append, hfirst, hstart, if_true, htake, hdrop, hopen, hshape]
    rw [hparts, List.drop_left, List.isPrefixOf_iff_prefix.2 (List.prefix_append _ _)]
    rfl

end TensorFact

/-! ### Facts -/

theorem Text.exists_of_mem_intercalate {mark c : Char} : ∀ {parts : List (List Char)},
    c ∈ [mark].intercalate parts → c = mark ∨ ∃ p ∈ parts, c ∈ p
  | [], h => by cases h
  | [part], h => .inr ⟨part, .head _, by rwa [List.intercalate_singleton] at h⟩
  | part :: next :: parts, h => by
    rw [List.intercalate_cons_cons, List.append_assoc, List.mem_append, List.mem_append, List.mem_singleton] at h
    rcases h with h | h | h
    · exact .inr ⟨part, .head _, h⟩
    · exact .inl h
    · exact (exists_of_mem_intercalate h).imp_right fun ⟨p, hp, hc⟩ => ⟨p, .tail _ hp, hc⟩

theorem ShapeFact.bracket_not_mem (s : ShapeFact) : ']' ∉ [','].intercalate (s.parts.map String.toList) := by
  intro h
  rcases exists_of_mem_intercalate h with h | ⟨_, hp, hc⟩
  · exact absurd h (by decide)
  · obtain ⟨part, hpart, rfl⟩ := List.mem_map.1 hp
    exact (isPlain_iff.1 (List.all_eq_true.1 (parts_plain hpart).2 ']' hc)).2.2 rfl

namespace TensorFact

/-- What stands behind the shape in the notation of a fact. -/
def valueText (f : TensorFact) : List Char :=
  match f.value with
  | none => []
  | some t => (" = " ++ t.text).toList

theorem toList_text (f : TensorFact) :
    f.text.toList = (dtypeText f.dtype).toList ++ f.shape.text.toList ++ f.valueText := by
  rw [text, valueText, String.toList_append, String.toList_append]
  cases f.value <;> rfl

theorem parse_of_not_split {text : String} (h : splitNotation? text.toList = none) :
    parse text = .error (.input (.notFact text)) := by
  rw [parse, h]

theorem parse_of_split {text : String} {name shape : List Char}
    (h : splitNotation? text.toList = some (some name, some shape)) :
    parse text = parseDType (some name) >>= fun dtype =>
      (ofShape dtype ·) <$> ShapeFact.parse (String.ofList shape) := by
  rw [parse, h]
  rfl

theorem all_isBlank_valueText {f : TensorFact} : f.valueText.all isBlank = true ↔ f.value = none := by
  rw [valueText]
  cases f.value with
  | none => exact ⟨fun _ => rfl, fun _ => rfl⟩
  | some t =>
    have hequals : (" = " ++ t.text).toList.all isBlank = false := by
      rw [String.toList_append]
      rfl
    exact ⟨fun h => absurd (hequals.symm.trans h) Bool.false_ne_true, nofun⟩

/-- A fact whose datatype is written as a name is read by the two parts of its notation. -/
theorem parse_text_of_isName {f : TensorFact} (hname : isName (dtypeText f.dtype).toList = true)
    (hlegible : f.shape.Legible) :
    parse f.text =
      if f.value = none then
        (ofShape · f.shape) <$> parseDType (some (dtypeText f.dtype).toList)
      else .error (.input (.notFact f.text)) := by
  have hsplit := splitNotation?_name hname f.shape.bracket_not_mem f.valueText
  have htext : f.text.toList = (dtypeText f.dtype).toList ++
      '[' :: ([','].intercalate (f.shape.parts.map String.toList) ++ ']' :: f.valueText) := by
    rw [toList_text, ShapeFact.toList_text]
    simp
  rw [← htext] at hsplit
  by_cases hvalue : f.value = none
  · rw [if_pos (all_isBlank_valueText.2 hvalue), ← ShapeFact.toList_text] at hsplit
    rw [parse_of_split hsplit, String.ofList_toList, ShapeFact.parse_text hlegible, if_pos hvalue]
    rfl
  · rw [if_neg (all_isBlank_valueText.not.2 hvalue)] at hsplit
    rw [parse_of_not_split hsplit, if_neg hvalue]

/-- A fact whose datatype is written with brackets is refused: the shape is left over. -/
theorem parse_text_of_parts {f : TensorFact} {word inner : List Char} (hword : isName word = true)
    (hinner : ']' ∉ inner) (hparts : (dtypeText f.dtype).toList = word ++ '[' :: (inner ++ [']'])) :
    parse f.text = .error (.input (.notFact f.text)) := by
  have htext : f.text.toList = word ++ '[' :: (inner ++ ']' :: (f.shape.text.toList ++ f.valueText)) := by
    rw [toList_text, hparts]
    simp
  have hrest : (f.shape.text.toList ++ f.valueText).all isBlank = false := by
    rw [ShapeFact.toList_text]
    rfl
  refine parse_of_not_split ?_
  rw [htext, splitNotation?_name hword hinner, hrest, if_neg Bool.false_ne_true]

theorem ofShape_eq {f : TensorFact} (h : f.value = none) : ofShape f.dtype f.shape = f := by
  cases f
  cases h
  rfl

/-- A fact is read again if it has no value and its datatype is listed, and else refused. -/
theorem parse_text_cases {f : TensorFact} (hlegible : f.shape.Legible) :
    (parse f.text = .ok f ∧ f.value = none ∧ DType.Listed f.dtype) ∨
      ((∃ fault, parse f.text = .error (.input fault)) ∧ ¬ (f.value = none ∧ DType.Listed f.dtype)) := by
  cases DType.nameRead f.dtype with
  | whole hname hread =>
    rw [parse_text_of_isName hname hlegible]
    by_cases hvalue : f.value = none
    · rw [if_pos hvalue]
      rcases hread with ⟨hread, hlisted⟩ | ⟨⟨fault, hrefused⟩, hlisted⟩
      · rw [hread]
        exact .inl ⟨congrArg Except.ok (ofShape_eq hvalue), hvalue, hlisted⟩
      · rw [hrefused]
        exact .inr ⟨⟨fault, rfl⟩, fun h => hlisted h.2⟩
    · rw [if_neg hvalue]
      exact .inr ⟨⟨_, rfl⟩, fun h => hvalue h.1⟩
  | parted hword hinner hparts hlisted =>
    exact .inr ⟨⟨_, parse_text_of_parts hword hinner hparts⟩, fun h => hlisted h.2⟩

/-- **The notation of a fact is read as the fact or refused.** It is read exactly if the fact has no
value and its datatype is unknown or has a name that is listed as a spelling, which
`DType.isListed_name_iff` tells. The notation of a shape is always read as the shape. Extents are
taken to have no more digits than may be read. -/
theorem roundTrip :
    (∀ s : ShapeFact, s.Legible → ShapeFact.parse s.text = .ok s) ∧
      ∀ f : TensorFact, f.shape.Legible →
        (parse f.text = .ok f ∨ ∃ fault, parse f.text = .error (.input fault)) ∧
          (parse f.text = .ok f ↔ f.value = none ∧ ∀ d, f.dtype = some d → DType.isListed d.name = true) := by
  refine ⟨fun s hlegible => ShapeFact.parse_text hlegible, fun f hlegible => ?_⟩
  rcases parse_text_cases hlegible with ⟨hread, hspelled⟩ | ⟨⟨fault, hrefused⟩, hspelled⟩
  · exact ⟨.inl hread, iff_of_true hread hspelled⟩
  · exact ⟨.inr ⟨fault, hrefused⟩, iff_of_false (by simp [hrefused]) hspelled⟩

/-- A shape without dimensions and a fact with dimensions of all kinds are read again. -/
theorem float_fact_read :
    ShapeFact.parse "[]" = .ok (.closed []) ∧
      parse "float32[1,_,S,..]" = .ok (ofShape (some .float32) (.starting [.known 1, .any, .streamed])) := by
  let shape := ShapeFact.starting [.known 1, .any, .streamed]
  have hempty : (ShapeFact.closed []).text = "[]" := by decide +kernel
  have htext : (ofShape (some .float32) shape).text = "float32[1,_,S,..]" := by decide +kernel
  have hlegible : shape.Legible := by
    intro n hn
    obtain rfl : n = 1 := by simpa [shape, ShapeFact.starting] using hn
    decide
  refine ⟨hempty ▸ roundTrip.1 (.closed []) fun n hn => absurd hn List.not_mem_nil, ?_⟩
  rw [← htext]
  refine (roundTrip.2 (ofShape (some .float32) shape) hlegible).2.2 ⟨rfl, ?_⟩
  rintro _ ⟨⟩
  decide +kernel

end TensorFact

end EdgeFacts
