/-
# Element types and scalars

The element types of tensors, their promotion (`ElemType.promote`: the type in
which two operands are combined) and the scalars they hold: truth values, whole
numbers and floating-point numbers. Complex numbers, dates, texts and objects are
left out. Integers wrap around at the width of their type; the result of each
floating-point operation is rounded.

Key definitions: `ElemType`, `ElemType.promote`, `Scalar`, `ElemType.cast`,
`ElemType.add`, `FloatWidth.dot`, `ElemType.dot`, `ElemType.clamp`.
Key theorems: `ElemType.promote_comm`, `ElemType.promote_self`, `Scalar.same_refl`.
-/
import EdgeFacts.Number.Floating

namespace EdgeFacts

-- Powers and sums are those of the core library, whatever else is imported.
attribute [local instance (high)] instPowNat Zero.ofOfNat0

/-- The widths of integers. -/
inductive IntWidth where
  | w8 | w16 | w32 | w64
deriving DecidableEq, Repr

/-- The widths of floating-point numbers. -/
inductive FloatWidth where
  | w16 | w32 | w64
deriving DecidableEq, Repr

namespace IntWidth

def bits : IntWidth → Nat
  | w8 => 8
  | w16 => 16
  | w32 => 32
  | w64 => 64

/-- The wider of two widths. -/
def max (a b : IntWidth) : IntWidth := if a.bits ≤ b.bits then b else a

/-- The next width, if there is one. -/
def next? : IntWidth → Option IntWidth
  | w8 => some w16
  | w16 => some w32
  | w32 => some w64
  | w64 => none

end IntWidth

namespace FloatWidth

def bits : FloatWidth → Nat
  | w16 => 16
  | w32 => 32
  | w64 => 64

/-- The wider of two widths. -/
def max (a b : FloatWidth) : FloatWidth := if a.bits ≤ b.bits then b else a

/-- The interchange format of the width. -/
def format : FloatWidth → FloatFormat
  | w16 => .half
  | w32 => .single
  | w64 => .double

/-- The narrowest width that is combined with integers of the given width. -/
def ofInt : IntWidth → FloatWidth
  | .w8 => w16
  | .w16 => w32
  | .w32 | .w64 => w64

end FloatWidth

/-- The type of the elements of a tensor. -/
inductive ElemType where
  | bool
  | int (w : IntWidth)
  | uint (w : IntWidth)
  | float (w : FloatWidth)
deriving DecidableEq, Repr

namespace ElemType

def name : ElemType → String
  | bool => "bool"
  | int w => "int" ++ toString w.bits
  | uint w => "uint" ++ toString w.bits
  | float w => "float" ++ toString w.bits

/-- The number of bytes of an element. -/
def bytes : ElemType → Nat
  | bool => 1
  | int w | uint w => w.bits / 8
  | float w => w.bits / 8

/-- All element types. -/
def all : List ElemType :=
  bool :: [IntWidth.w8, .w16, .w32, .w64].map int ++ [IntWidth.w8, .w16, .w32, .w64].map uint
    ++ [FloatWidth.w16, .w32, .w64].map float

/-- The element type with the given name. -/
def ofName? (s : String) : Option ElemType := all.find? (·.name = s)

/-- A signed and an unsigned type meet in a signed type that holds both, or in
doubles where there is none. -/
def promoteSigned (signed unsigned : IntWidth) : ElemType :=
  if unsigned.bits < signed.bits then int signed
  else match unsigned.next? with
    | some w => int w
    | none => float .w64

/-- The type in which elements of two types are combined. -/
def promote : ElemType → ElemType → ElemType
  | bool, b => b
  | a, bool => a
  | int a, int b => int (a.max b)
  | uint a, uint b => uint (a.max b)
  | int a, uint b => promoteSigned a b
  | uint a, int b => promoteSigned b a
  | float a, float b => float (a.max b)
  | float a, int b | float a, uint b => float (a.max (.ofInt b))
  | int a, float b | uint a, float b => float (b.max (.ofInt a))

theorem promote_self (a : ElemType) : a.promote a = a := by
  cases a <;> simp [promote, IntWidth.max, FloatWidth.max]

theorem promote_comm (a b : ElemType) : a.promote b = b.promote a := by
  cases a <;> cases b <;> simp only [promote] <;> rename_i v w <;> cases v <;> cases w <;> rfl

end ElemType

/-- One element of a tensor. -/
inductive Scalar where
  | bool (b : Bool)
  | int (n : Int)
  | float (x : FloatDatum)
deriving DecidableEq, Repr, Inhabited

namespace Scalar

/-- Whether two elements hold the same value; see `FloatDatum.same`. -/
def same : Scalar → Scalar → Bool
  | float x, float y => x.same y
  | a, b => a = b

theorem same_refl (a : Scalar) : a.same a = true := by
  cases a <;> simp [same, FloatDatum.same_refl]

theorem same_symm {a b : Scalar} (h : a.same b = true) : b.same a = true := by
  cases a <;> cases b <;> simp_all [same, FloatDatum.same]

theorem same_trans {a b c : Scalar} (h : a.same b = true) (k : b.same c = true) :
    a.same c = true := by
  cases a <;> cases b <;> cases c <;> simp_all [same, FloatDatum.same]

/-- The element as a truth value: whether it differs from zero. -/
def toBool : Scalar → Bool
  | bool b => b
  | int n => n ≠ 0
  | float x => !x.isZero

/-- The element as a whole number, toward zero; what is not finite gives 0. -/
def toInt : Scalar → Int
  | bool b => if b then 1 else 0
  | int n => n
  | float (.finite x) => x.num.tdiv x.den
  | float _ => 0

/-- The element as a floating-point number, exactly. -/
def toFloat : Scalar → FloatDatum
  | bool b => .finite (if b then 1 else 0)
  | int n => .finite n
  | float x => x

end Scalar

/-- The sum of the products of pairs, one after the other. Each product is rounded, and so
is each sum. -/
def FloatWidth.dot (w : FloatWidth) (pairs : List (Scalar × Scalar)) : FloatDatum :=
  pairs.foldl (fun sum p => w.format.fit (sum.add (w.format.fit (p.1.toFloat.mul p.2.toFloat)))) (.finite 0)

namespace ElemType

/-- A whole number brought into the range of an integer type by wrapping around. -/
def wrap : ElemType → Int → Int
  | int w, n => n.bmod (2 ^ w.bits)
  | uint w, n => n % (2 ^ w.bits : Nat)
  | _, n => n

/-- The element converted to the type. -/
def cast : ElemType → Scalar → Scalar
  | bool, a => .bool a.toBool
  | float w, a => .float (w.format.fit a.toFloat)
  | e, a => .int (e.wrap a.toInt)

/-- The sum of two elements of the type; of truth values, whether one holds. -/
def add : ElemType → Scalar → Scalar → Scalar
  | bool, a, b => .bool (a.toBool || b.toBool)
  | float w, a, b => .float (w.format.fit (a.toFloat.add b.toFloat))
  | e, a, b => .int (e.wrap (a.toInt + b.toInt))

/-- The sum of the products of pairs of elements of the type; of truth values,
whether both hold in some pair. -/
def dot : ElemType → List (Scalar × Scalar) → Scalar
  | bool, pairs => .bool (pairs.any fun p => p.1.toBool && p.2.toBool)
  | float w, pairs => .float (w.dot pairs)
  | e, pairs => .int (e.wrap (pairs.map fun p => p.1.toInt * p.2.toInt).sum)

/-- The larger of the element and zero. -/
def clamp : Scalar → Scalar
  | .bool b => .bool b
  | .int n => .int (max n 0)
  | .float x => .float x.clampBelow

end ElemType

end EdgeFacts
