/-
# The names of datatypes in notations

Which datatypes have names that are listed as their spellings, and how a name is read
where the datatype stands in the notation of a fact (`DType.nameRead`). The list has
names, codes and words for times; of the datatypes it names those without a size and
without a step (`DType.isListed_name_iff`). Every other name is refused. That of a type
with a size spells no datatype; that of a type of times with its step spells one, but has
brackets, which are taken for the shape.

Key definitions: `Text.isName`, `DType.isListed`, `DType.NameForm`, `DType.NameRead`.
Key theorems: `DType.nameForm`, `DType.isListed_name_iff`, `DType.nameRead`,
`DType.isListed_name_iff_spelled`.
-/
import EdgeFacts.Proofs.ShapeNotation

namespace EdgeFacts

open Text

/-! ### Names -/

/-- Whether a text is a name: word characters, of which the first may begin a name. -/
def Text.isName : List Char → Bool
  | c :: rest => isNameStart c && rest.all isWord
  | [] => false

theorem Text.isName_append {name behind : List Char} (hname : isName name = true)
    (hbehind : ∀ c ∈ behind, isWord c = true) : isName (name ++ behind) = true := by
  cases name with
  | nil => cases hname
  | cons c rest =>
    rw [isName, Bool.and_eq_true] at hname
    rw [List.cons_append, isName, List.all_append, hname.1, hname.2, List.all_eq_true.2 hbehind]
    rfl

theorem Text.bracket_not_mem_of_isName {name : List Char} (h : isName name = true) : '[' ∉ name := by
  cases name with
  | nil => exact List.not_mem_nil
  | cons c rest =>
    rw [isName, Bool.and_eq_true, List.all_eq_true] at h
    rintro (_ | ⟨_, hmem⟩)
    · exact absurd h.1 (by decide)
    · exact absurd (h.2 '[' hmem) (by decide +kernel)

theorem Text.isWord_of_isDigit {c : Char} (h : c.isDigit = true) : isWord c = true :=
  of_isDigit (by decide +kernel) h

/-! ### Listed spellings -/

namespace DType

/-- Whether a text is listed as the spelling of a datatype: as a name, or as a code or a word for
times, which a mark of byte order may stand before. -/
def isListed (s : String) : Bool :=
  names.any (·.1 = s) || timeWords.any (·.1.toList = dropMark s.toList) || (ofCode? (dropMark s.toList)).isSome

theorem isListed_eq_false {s : String} (hmark : dropMark s.toList = s.toList) (hcode : ofCode? s.toList = none)
    (hnames : ∀ p ∈ names, p.1.toList ≠ s.toList) (hwords : timeWords.any (·.1.toList = s.toList) = false) :
    isListed s = false := by
  have hany : names.any (·.1 = s) = false :=
    List.any_eq_false.2 fun p hp => by simpa using fun h : p.1 = s => hnames p hp (h ▸ rfl)
  rw [isListed, hany, hmark, hwords, hcode]
  rfl

/-- Whether a datatype has, if it is known, a name that is listed. -/
def Listed (dtype : Option DType) : Prop := ∀ d, dtype = some d → isListed d.name = true

theorem listed_some {d : DType} : Listed (some d) ↔ isListed d.name = true := by simp [Listed]

/-! ### The forms of names -/

/-- The datatypes whose names are listed. -/
def listedTypes : List DType :=
  ElemType.all.map elem ++ [float128, complex64, complex128, complex256, object, datetime64 none,
    timedelta64 none, text 0, bytes 0, void 0]

/-- The words of the types that have sizes. -/
def sizedWords : List String := ["str", "bytes", "void"]

/-- The words of the types that have steps. -/
def steppedWords : List String := ["datetime64", "timedelta64"]

/-- The forms that the names of datatypes have. -/
inductive NameForm (d : DType) : Prop where
  | listed (mem : d ∈ listedTypes)
  /-- A size stands behind a word. -/
  | sized {word : String} {n : Nat} (mem : word ∈ sizedWords) (name : d.name = word ++ toString n)
  /-- A step stands behind a word. -/
  | stepped {word : String} {step : TimeStep} (mem : word ∈ steppedWords) (name : d.name = word ++ step.text)
  | variableText (eq : d = .variableText)

theorem nameForm_of_sizedName {d : DType} {word : String} {bits : Nat} (hword : word ∈ sizedWords)
    (hname : d.name = sizedName word bits) (hnone : bits = 0 → d ∈ listedTypes) : NameForm d := by
  by_cases h : bits = 0
  · exact .listed (hnone h)
  · exact .sized hword (hname.trans (if_neg h))

theorem nameForm (d : DType) : NameForm d := by
  cases d with
  | elem e =>
    refine .listed (List.mem_append_left _ (List.mem_map_of_mem ?_))
    rcases e with _ | w | w | w <;> (try cases w) <;> decide
  | float128 | complex64 | complex128 | complex256 | object => exact .listed (by decide)
  | datetime64 step =>
    cases step with
    | none => exact .listed (by decide)
    | some step =>
      have hword : "datetime64" ∈ steppedWords := by decide
      exact .stepped hword rfl
  | timedelta64 step =>
    cases step with
    | none => exact .listed (by decide)
    | some step =>
      have hword : "timedelta64" ∈ steppedWords := by decide
      exact .stepped hword rfl
  | variableText => exact .variableText rfl
  | text n =>
    have hword : "str" ∈ sizedWords := by decide
    refine nameForm_of_sizedName hword rfl fun h => ?_
    obtain rfl : n = 0 := by omega
    decide
  | bytes n =>
    have hword : "bytes" ∈ sizedWords := by decide
    refine nameForm_of_sizedName hword rfl fun h => ?_
    obtain rfl : n = 0 := by omega
    decide
  | void n =>
    have hword : "void" ∈ sizedWords := by decide
    refine nameForm_of_sizedName hword rfl fun h => ?_
    obtain rfl : n = 0 := by omega
    decide

theorem isName_word {word : String} (h : word ∈ sizedWords ++ steppedWords) : isName word.toList = true := by
  have hall : ∀ word ∈ sizedWords ++ steppedWords, isName word.toList = true := by decide +kernel
  exact hall word h

theorem ofCode?_word {word : String} (h : word ∈ sizedWords ++ steppedWords) (rest : List Char) :
    dropMark (word.toList ++ rest) = word.toList ++ rest ∧ ofCode? (word.toList ++ rest) = none := by
  simp only [sizedWords, steppedWords, List.cons_append, List.nil_append, List.mem_cons, List.not_mem_nil,
    or_false] at h
  rcases h with rfl | rfl | rfl | rfl | rfl <;> exact ⟨rfl, rfl⟩

/-! ### Names with sizes -/

theorem hasOuterComma_eq_false : ∀ {s : List Char} {depth : Int}, ',' ∉ s → hasOuterComma depth s = false
  | [], _, _ => rfl
  | c :: s, depth, h => by
    rw [List.mem_cons, not_or] at h
    have hrest : ∀ {depth : Int}, hasOuterComma depth s = false := hasOuterComma_eq_false h.2
    rw [hasOuterComma, if_neg (Ne.symm h.1), hrest, hrest, hrest, ite_self, ite_self]

theorem ofSpelling_eq_ofSingle {s : String} (h : isCompound s.toList = false) :
    ofSpelling s = ofSingle s.toList := by
  unfold ofSpelling
  cases s.length with
  | zero => rfl
  | succ fuel => rw [ofText, h, if_neg Bool.false_ne_true]

/-- What begins with the word of a type with sizes spells no times and has no repeats. -/
theorem timeType?_sized {word : String} (h : word ∈ sizedWords) (rest : List Char) :
    timeType? (word.toList ++ rest) = none ∧ hasRepeats (word.toList ++ rest) = false ∧
      timeWords.any (·.1.toList = word.toList ++ rest) = false := by
  simp only [sizedWords, List.mem_cons, List.not_mem_nil, or_false] at h
  rcases h with rfl | rfl | rfl <;> exact ⟨rfl, rfl, rfl⟩

theorem not_name_of_sized {word : String} (hword : word ∈ sizedWords) (n : Nat) :
    ∀ p ∈ names, p.1.toList ≠ word.toList ++ (toString n).toList := by
  -- A name that begins with the word ends with it or goes on with something else than digits.
  have hall : ∀ word ∈ sizedWords, ∀ p ∈ names, word.toList <+: p.1.toList →
      p.1.toList.drop word.toList.length = [] ∨
        (p.1.toList.drop word.toList.length).all Char.isDigit = false := by
    decide +kernel
  intro p hp heq
  have hdrop : p.1.toList.drop word.toList.length = (toString n).toList := by rw [heq, List.drop_left]
  rcases hall word hword p hp (heq ▸ List.prefix_append _ _) with hnil | hdigits
  · exact toString_ne_nil n (hdrop ▸ hnil)
  · rw [hdrop, List.all_eq_true.2 fun c hc => isDigit_of_mem_toString hc] at hdigits
    cases hdigits

theorem sized_plain {word : String} (hword : word ∈ sizedWords) (n : Nat) :
    ∀ c ∈ word.toList ++ (toString n).toList, c ≠ ',' ∧ c ≠ '_' := by
  have hletter : ∀ word ∈ sizedWords, word.toList.all (fun c => c ≠ ',' ∧ c ≠ '_') = true := by decide
  have hdigit : asciiDigits.all (fun c => c ≠ ',' ∧ c ≠ '_') = true := by decide
  intro c hc
  rcases List.mem_append.1 hc with hc | hc
  · simpa using List.all_eq_true.1 (hletter word hword) c hc
  · simpa using of_isDigit hdigit (isDigit_of_mem_toString hc)

/-- The name of a type with a size is not listed, and spells no datatype. -/
theorem unlisted_of_sized {d : DType} {word : String} {n : Nat} (hword : word ∈ sizedWords)
    (hname : d.name = word ++ toString n) :
    isListed d.name = false ∧ isName d.name.toList = true ∧ d.name.toList ≠ ['_'] ∧
      ofSpelling d.name = .error (.unknown d.name) := by
  -- All that is read of the name is read of its characters: the word's, then digits.
  have hchars : d.name.toList = word.toList ++ (toString n).toList := by rw [hname, String.toList_append]
  obtain ⟨hmark, hcode⟩ := ofCode?_word (List.mem_append_left _ hword) (toString n).toList
  obtain ⟨htime, hrepeats, hwords⟩ := timeType?_sized hword (toString n).toList
  have hplain := sized_plain hword n
  have hnames := not_name_of_sized hword n
  rw [← hchars] at hmark hcode htime hrepeats hwords hplain hnames
  refine ⟨isListed_eq_false hmark hcode hnames hwords, ?_, fun h => (hplain '_' (h ▸ .head _)).2 rfl, ?_⟩
  · exact hchars ▸ isName_append (isName_word (List.mem_append_left _ hword))
      fun c hc => isWord_of_isDigit (isDigit_of_mem_toString hc)
  · have hcompound : isCompound d.name.toList = false := by
      rw [isCompound, hrepeats, hasOuterComma_eq_false fun h => (hplain ',' h).1 rfl]
      rfl
    have hfind : names.find? (·.1.toList = d.name.toList) = none :=
      List.find?_eq_none.2 fun p hp => by simpa using hnames p hp
    rw [ofSpelling_eq_ofSingle hcompound, ofSingle, hfind, hmark, htime, hcode, String.ofList_toList]
    rfl

/-! ### Names with steps -/

theorem bracket_not_mem_toString (n : Int) : ']' ∉ (toString n).toList := by
  have hnat : ∀ n : Nat, ']' ∉ (toString n).toList := fun n h => absurd (isDigit_of_mem_toString h) (by decide)
  cases n with
  | ofNat n => exact hnat n
  | negSucc n =>
    change ']' ∉ ("-" ++ toString (n + 1)).toList
    rw [String.toList_append, List.mem_append, not_or]
    exact ⟨by decide, hnat (n + 1)⟩

theorem exists_step_text (step : TimeStep) :
    ∃ inner : List Char, ']' ∉ inner ∧ step.text.toList = '[' :: (inner ++ [']']) := by
  refine ⟨(if step.count = 1 then "" else toString step.count).toList ++ step.unit.symbol.toList, ?_, ?_⟩
  · have hunit : ']' ∉ step.unit.symbol.toList := by cases step.unit <;> decide
    rw [List.mem_append, not_or]
    refine ⟨?_, hunit⟩
    split
    · decide
    · exact bracket_not_mem_toString step.count
  · simp only [TimeStep.text, String.toList_append, List.append_assoc]
    rfl

/-- The name of a type of times with its step is not listed; its brackets are apart from the word. -/
theorem unlisted_of_stepped {d : DType} {word : String} {step : TimeStep} (hword : word ∈ steppedWords)
    (hname : d.name = word ++ step.text) :
    isListed d.name = false ∧ isName word.toList = true ∧
      ∃ inner : List Char, ']' ∉ inner ∧ d.name.toList = word.toList ++ '[' :: (inner ++ [']']) := by
  have hall := List.mem_append_right sizedWords hword
  obtain ⟨inner, hinner, hstep⟩ := exists_step_text step
  have hchars : d.name.toList = word.toList ++ '[' :: (inner ++ [']']) := by
    rw [hname, String.toList_append, hstep]
  obtain ⟨hmark, hcode⟩ := ofCode?_word hall ('[' :: (inner ++ [']']))
  rw [← hchars] at hmark hcode
  have hmem : '[' ∈ d.name.toList := by simp [hchars]
  have hbare : (∀ p ∈ names, '[' ∉ p.1.toList) ∧ ∀ w ∈ timeWords, '[' ∉ w.1.toList := by decide +kernel
  have hnames : ∀ p ∈ names, p.1.toList ≠ d.name.toList := fun p hp h => hbare.1 p hp (h ▸ hmem)
  have hwords : timeWords.any (·.1.toList = d.name.toList) = false :=
    List.any_eq_false.2 fun w hw => by simpa using fun h : w.1.toList = _ => hbare.2 w hw (h ▸ hmem)
  exact ⟨isListed_eq_false hmark hcode hnames hwords, isName_word hall, inner, hinner, hchars⟩

/-! ### Which names are listed, and how names are read -/

theorem read_of_mem {d : DType} (h : d ∈ listedTypes) :
    isListed d.name = true ∧ isName d.name.toList = true ∧
      TensorFact.parseDType (some d.name.toList) = .ok (some d) := by
  have hall : ∀ d ∈ listedTypes, isListed d.name = true ∧ isName d.name.toList = true ∧
      (TensorFact.parseDType (some d.name.toList)).toOption = some (some d) := by
    decide +kernel
  obtain ⟨hlisted, hname, hread⟩ := hall d h
  exact ⟨hlisted, hname, eq_ok_of_toOption hread⟩

theorem isListed_variableText : isListed variableText.name = false := by decide +kernel

/-- The list has the names of these datatypes: those without a size and without a step. -/
theorem isListed_name_iff {d : DType} : isListed d.name = true ↔ d ∈ listedTypes := by
  refine ⟨fun h => ?_, fun h => (read_of_mem h).1⟩
  cases d.nameForm with
  | listed hmem => exact hmem
  | sized hword hname => exact absurd h (by simp [unlisted_of_sized hword hname])
  | stepped hword hname => exact absurd h (by simp [unlisted_of_stepped hword hname])
  | variableText heq => exact absurd h (by simp [heq, isListed_variableText])

/-- How the text of a datatype is read where it stands in a notation. -/
inductive NameRead (dtype : Option DType) : Prop where
  /-- As a whole: as the datatype if its name is listed, and else as none. -/
  | whole (name : isName (dtypeText dtype).toList = true)
      (read : TensorFact.parseDType (some (dtypeText dtype).toList) = .ok dtype ∧ Listed dtype ∨
        (∃ fault, TensorFact.parseDType (some (dtypeText dtype).toList) = .error (.input fault)) ∧ ¬ Listed dtype)
  /-- In parts: what stands in brackets is taken for a shape. -/
  | parted {word inner : List Char} (word_name : isName word = true) (inner_plain : ']' ∉ inner)
      (parts : (dtypeText dtype).toList = word ++ '[' :: (inner ++ [']'])) (unlisted : ¬ Listed dtype)

/-- The text of every datatype is read in one of these ways. -/
theorem nameRead : ∀ dtype : Option DType, NameRead dtype
  | none => .whole (by decide) (.inl ⟨rfl, nofun⟩)
  | some d => by
    cases d.nameForm with
    | listed hmem =>
      obtain ⟨hlisted, hname, hread⟩ := read_of_mem hmem
      exact .whole hname (.inl ⟨hread, listed_some.2 hlisted⟩)
    | sized hword hname =>
      obtain ⟨hlisted, hwhole, hlow, hspelling⟩ := unlisted_of_sized hword hname
      refine .whole hwhole (.inr ⟨⟨.unknownDType d.name, ?_⟩, by simp [listed_some, hlisted]⟩)
      rw [dtypeText, TensorFact.parseDType, if_neg hlow, String.ofList_toList, hspelling]
    | stepped hword hname =>
      obtain ⟨hlisted, hwordName, inner, hinner, hparts⟩ := unlisted_of_stepped hword hname
      exact .parted hwordName hinner hparts (by simp [listed_some, hlisted])
    | variableText heq =>
      subst heq
      refine .whole (by decide +kernel) (.inr ⟨⟨.unknownDType "StringDType128", rfl⟩, ?_⟩)
      simp [listed_some, isListed_variableText]

/-- A text that is not the low line is read as the datatype that it spells. -/
theorem parseDType_eq_ok_iff {s : String} {d : DType} (h : TensorFact.parseDType (some s.toList) ≠ .ok none) :
    TensorFact.parseDType (some s.toList) = .ok (some d) ↔ ofSpelling s = .ok d := by
  rw [TensorFact.parseDType, String.ofList_toList] at h ⊢
  by_cases hlow : s.toList = ['_']
  · exact absurd (if_pos hlow) h
  · rw [if_neg hlow]
    cases ofSpelling s <;> simp

/-- The listed names are those that spell their datatype and have no brackets. -/
theorem isListed_name_iff_spelled {d : DType} :
    isListed d.name = true ↔ ofSpelling d.name = .ok d ∧ '[' ∉ d.name.toList := by
  cases nameRead (some d) with
  | whole hname hread =>
    change isName d.name.toList = true at hname
    change TensorFact.parseDType (some d.name.toList) = _ ∧ _ ∨
      (∃ _, TensorFact.parseDType (some d.name.toList) = _) ∧ _ at hread
    rw [listed_some] at hread
    rcases hread with ⟨hread, hlisted⟩ | ⟨⟨fault, hrefused⟩, hlisted⟩
    · have hspelled := (parseDType_eq_ok_iff (by simp [hread])).1 hread
      exact iff_of_true hlisted ⟨hspelled, bracket_not_mem_of_isName hname⟩
    · refine iff_of_false hlisted fun h => ?_
      have hread := (parseDType_eq_ok_iff (by simp [hrefused])).2 h.1
      rw [hrefused] at hread
      cases hread
  | parted hword hinner hparts hlisted =>
    refine iff_of_false (listed_some.not.1 hlisted) fun h => h.2 ?_
    rw [show d.name.toList = _ from hparts]
    simp

end DType

end EdgeFacts
