/-
# Datatypes

A datatype is an element type of tensors or one of the types that facts may name
though no kernel computes with them. Every datatype has one name (`DType.name`).
Records and arrays within elements are told by their size alone. How datatypes
are spelled is in `EdgeFacts.Tensor.Spelling`.

Key definitions: `DType`, `DType.name`, `DType.size`.
-/
import EdgeFacts.Tensor.Element
import EdgeFacts.Tensor.TimeStep

namespace EdgeFacts

/-- A datatype. Sizes of texts are in characters, of raw bytes in bytes. -/
inductive DType where
  | elem (e : ElemType)
  | float128
  | complex64
  | complex128
  | complex256
  | object
  /-- Points in time, counted in steps if the step is known. -/
  | datetime64 (step : Option TimeStep)
  /-- Spans of time. -/
  | timedelta64 (step : Option TimeStep)
  | variableText
  | text (chars : Nat)
  | bytes (count : Nat)
  | void (count : Nat)
deriving DecidableEq, Repr

namespace DType

/-- The name of a sized type: the size in bits, if there is one, behind a word. -/
def sizedName (word : String) (bits : Nat) : String :=
  if bits = 0 then word else word ++ toString bits

/-- The one name of the datatype. -/
def name : DType → String
  | elem e => e.name
  | float128 => "float128"
  | complex64 => "complex64"
  | complex128 => "complex128"
  | complex256 => "complex256"
  | object => "object"
  | datetime64 step => "datetime64" ++ (step.map TimeStep.text).getD ""
  | timedelta64 step => "timedelta64" ++ (step.map TimeStep.text).getD ""
  | variableText => "StringDType128"
  | text n => sizedName "str" (32 * n)
  | bytes n => sizedName "bytes" (8 * n)
  | void n => sizedName "void" (8 * n)

/-- The number of bytes of a value of the datatype. -/
def size : DType → Nat
  | elem e => e.bytes
  | float128 => 16
  | complex64 => 8
  | complex128 => 16
  | complex256 => 32
  | object => 8
  | datetime64 _ => 8
  | timedelta64 _ => 8
  | variableText => 16
  | text n => 4 * n
  | bytes n => n
  | void n => n

/-- The number of which the address of a value is a multiple. -/
def alignment : DType → Nat
  | elem e => e.bytes
  | float128 | complex256 => 16
  | complex64 | text _ => 4
  | complex128 | object | datetime64 _ | timedelta64 _ | variableText => 8
  | bytes _ | void _ => 1

/-- The datatype with another size in its own units, if it is one without a size. -/
def resize? : DType → Nat → Option DType
  | text 0, n => some (text n)
  | bytes 0, n => some (bytes n)
  | void 0, n => some (void n)
  | _, _ => none

def bool : DType := elem .bool
def int8 : DType := elem (.int .w8)
def int16 : DType := elem (.int .w16)
def int32 : DType := elem (.int .w32)
def int64 : DType := elem (.int .w64)
def uint8 : DType := elem (.uint .w8)
def uint16 : DType := elem (.uint .w16)
def uint32 : DType := elem (.uint .w32)
def uint64 : DType := elem (.uint .w64)
def float16 : DType := elem (.float .w16)
def float32 : DType := elem (.float .w32)
def float64 : DType := elem (.float .w64)

/-- The element type, if kernels compute with the datatype. -/
def elem? : DType → Option ElemType
  | elem e => some e
  | _ => none

end DType

end EdgeFacts
