/-
# Broadcasting of shape facts

What the shapes of two operands say about the shape they broadcast to. The
streamed dimension broadcasts with itself and with 1 only.

Key definitions: `broadcastDim`, `broadcastShapes`.
-/
import EdgeFacts.Failure.Basic

namespace EdgeFacts

/-- What two aligned dimensions say about the dimension they broadcast to. An
unknown dimension beside an extent above 1 can only broadcast to that extent;
beside 0 it may be 0 or 1 and nothing is said. -/
def broadcastDim (a b : DimFact) : Except Failure DimFact :=
  if a = .known 1 then .ok b
  else if b = .known 1 then .ok a
  else if a = b then .ok a
  else match a, b with
    | .streamed, .any | .any, .streamed => .ok .streamed
    | .any, .known n | .known n, .any => .ok (if 1 < n then .known n else .any)
    | _, _ => .error (.because (.broadcast a b))

/-- Broadcasting of dimensions, the last axis first. -/
def broadcastDims : List DimFact → List DimFact → Except Failure (List DimFact)
  | [], bs => .ok bs
  | as, [] => .ok as
  | a :: as, b :: bs => do
    let d ← broadcastDim a b
    let rest ← broadcastDims as bs
    return d :: rest

/-- The shape that two operands broadcast to; nothing is said if one is open. -/
def broadcastShapes (a b : ShapeFact) : Except Failure ShapeFact :=
  if a.isOpen || b.isOpen then .ok .unknown
  else do
    let dims ← broadcastDims a.dims.reverse b.dims.reverse
    return .closed dims.reverse

end EdgeFacts
