/-
# Datatypes described by literals

A literal describes a datatype by its spelling, or a record of named fields by
their names and formats side by side, perhaps with offsets, titles, an alignment
and a total size. No fields at all make an empty record; other literals describe
nothing, and `DType.ofLiteral` tells why.

Key definitions: `DType.ofLiteral`, `DType.ofFields`.
Key theorems: `DType.dvd_alignUp`, `DType.le_alignUp`.
-/
import EdgeFacts.Literal.Basic
import EdgeFacts.Tensor.Spelling

namespace EdgeFacts

namespace DType

/-- A whole number that fits into a machine word. -/
def wordOf : Literal → Except DTypeFault Int
  | .int n => if n.natAbs ≤ maxSize then .ok n else .error (.record .numberTooLarge)
  | x => .error (.notIndex x.kindName)

/-- The least multiple of an alignment that is not below a size. -/
def alignUp (alignment size : Nat) : Nat := (size + alignment - 1) / alignment * alignment

theorem dvd_alignUp (alignment size : Nat) : alignment ∣ alignUp alignment size :=
  Nat.dvd_mul_left ..

theorem le_alignUp {alignment : Nat} (size : Nat) (positive : 0 < alignment) :
    size ≤ alignUp alignment size := by
  have whole := Nat.div_add_mod (size + alignment - 1) alignment
  have rest := Nat.mod_lt (size + alignment - 1) positive
  rw [alignUp, Nat.mul_comm]
  omega

/-- One field of a record as it is described. -/
structure FieldSpec where
  name : Literal
  title : Literal
  format : Except DTypeFault DType
  offset : Option Literal

/-- How much of a record has been laid out. -/
structure Layout where
  size : Nat
  alignment : Nat
  names : List String

/-- Where a field begins: at its offset, or behind the fields before it. -/
def placeField (aligned : Bool) (l : Layout) (d : DType) : Option Literal → Except DTypeFault Nat
  | none => .ok (if aligned then alignUp d.alignment l.size else l.size)
  | some x => do
    let offset ← wordOf x
    if offset < 0 then throw (.record (.offsetNegative offset))
    else if aligned && offset.toNat % d.alignment ≠ 0 then
      throw (.record (.offsetUnaligned offset.toNat d.alignment))
    else return offset.toNat

/-- Adds names that must not be in use. -/
def addName (names : List String) (name : String) : Except DTypeFault (List String) :=
  if names.contains name then .error (.record .repeatedName) else .ok (name :: names)

/-- Lays out a field. -/
def layField (aligned : Bool) (l : Layout) (f : FieldSpec) : Except DTypeFault Layout := do
  let d ← f.format
  let offset ← placeField aligned l d f.offset
  let names ← match f.name with
    | .text name => addName l.names name
    | _ => .error (.record .fieldName)
  let names ← match f.title with
    | .text title => addName names title
    | _ => .ok names
  return { names
           size := max l.size (offset + d.size)
           alignment := if aligned then max l.alignment d.alignment else l.alignment }

/-- The total size of a record, which may be given if it is large enough. -/
def totalSize (aligned : Bool) (l : Layout) : Option Literal → Except DTypeFault Nat
  | none => .ok (alignUp l.alignment l.size)
  | some x => do
    let needed := alignUp l.alignment l.size
    let given ← wordOf x
    if given < needed then throw (.record (.sizeTooSmall needed given))
    else if aligned && given.toNat % l.alignment ≠ 0 then
      throw (.record (.sizeUnaligned l.alignment given))
    else return given.toNat

/-- Fields side by side, with null for a title that is not given. -/
def zipFields (names titles : List Literal) (formats : List (Except DTypeFault DType))
    (offsets : Option (List Literal)) : List FieldSpec :=
  (List.range names.length).map fun i =>
    { name := names.getD i .none
      title := titles.getD i .none
      format := formats.getD i (.error (.unknown ""))
      offset := offsets.map fun xs => xs.getD i .none }

/-- The record of fields whose formats have been read. -/
def ofFields (fields : List (String × Literal))
    (formats : Option (List (Except DTypeFault DType))) : Except DTypeFault DType := do
  let listOf (key : String) := (Literal.field? fields key).map fun x => x.items?
  let some names := ((Literal.field? fields "names").getD .none).items?
    | throw (.notIterable ((Literal.field? fields "names").getD .none).kindName)
  let enough {α : Type} (items : Option (List α)) : Bool := items.any (names.length ≤ ·.length)
  if !(enough formats && (listOf "offsets").all enough && (listOf "titles").all enough) then
    throw (.record .unequalLengths)
  let aligned ← match Literal.field? fields "aligned" with
    | none | some (.bool false) => pure false
    | some (.bool true) => pure true
    | some _ => throw (.record .alignedFlag)
  let specs := zipFields names ((listOf "titles").join.getD []) (formats.getD [])
    (listOf "offsets").join
  let layout ← specs.foldlM (layField aligned) ⟨0, 1, []⟩
  return void (← totalSize aligned layout (Literal.field? fields "itemsize"))

/-- Why a record that does not list names and formats describes nothing, unless
it is empty: its first field has no type and offset. -/
def ofEntries : List (String × Literal) → Except DTypeFault DType
  | [] => .ok (void 0)
  | (_, x) :: _ => .error (if x.items?.isSome then .fieldEntry else .noLength x.kindName)

mutual

/-- The datatype that a literal describes. -/
def describe : Literal → Except DTypeFault DType
  | .text s => ofSpelling s
  | .list [] => .ok (void 0)
  | .list (x :: _) => .error (.fieldElement x.render)
  | .record fields =>
    match describeFormats fields, Literal.field? fields "names" with
    | some formats, some _ => ofFields fields formats
    | _, _ => ofEntries fields
  | x => .error (.uninterpreted x.render)

/-- The formats among the fields of a record, if there are some. -/
def describeFormats :
    List (String × Literal) → Option (Option (List (Except DTypeFault DType)))
  | [] => none
  | (name, x) :: rest => if name = "formats" then some (describeItems x) else describeFormats rest

/-- The datatypes that the items of a literal describe, if it has items. -/
def describeItems : Literal → Option (List (Except DTypeFault DType))
  | .list items => some (describeEach items)
  | .text s => some (s.toList.map fun c => ofSpelling (String.ofList [c]))
  | .record fields => some (fields.map fun _ => .error (.unknown ""))
  | _ => none

/-- The datatypes that literals describe. -/
def describeEach : List Literal → List (Except DTypeFault DType)
  | [] => []
  | x :: rest => describe x :: describeEach rest

end

/-- The datatype that a literal describes; null says nothing. -/
def ofLiteral : Literal → Except DTypeFault (Option DType)
  | .none => .ok none
  | x => some <$> describe x

end DType

end EdgeFacts
