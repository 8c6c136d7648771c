/-
# Sorting of literals

Literals of one kind are ordered: numbers by value, texts by code points, lists
by their first different items. Sorting fails at the first two literals that
have no order, so the order of comparisons shows: first the run at the front is
found, then each later item is inserted by halving.

Key definitions: `Literal.less`, `Literal.sort`.
-/
import EdgeFacts.Literal.Basic

namespace EdgeFacts.Literal

/-- The kinds of two literals that have no order. -/
abbrev Unordered := String × String

/-- Whether one number is below another. -/
def lessNumber (a b : FloatDatum) : Bool :=
  match a.value, b.value with
  | .finite x, .finite y => x < y
  | .inf true, .finite _ | .inf true, .inf false | .finite _, .inf false => true
  | _, _ => false

mutual

/-- Whether one literal is below another, if they have an order. -/
def less : Literal → Literal → Except Unordered Bool
  | text s, text t => .ok (s < t)
  | list xs, list ys => lessList xs ys
  | a, b =>
    match a.number?, b.number? with
    | some x, some y => .ok (lessNumber x y)
    | _, _ => .error (a.kindName, b.kindName)

/-- Whether one list is below another: the first different items decide. -/
def lessList : List Literal → List Literal → Except Unordered Bool
  | _, [] => .ok false
  | [], _ :: _ => .ok true
  | x :: xs, y :: ys => if x.isNan && y.isNan || same x y then lessList xs ys else less x y

end

/-- The number of further items that continue a run, falling or not. -/
def runLength (falling : Bool) (last : Literal) : List Literal → Except Unordered Nat
  | [] => .ok 0
  | x :: rest => do
    if (← less x last) = falling then return (← runLength falling x rest) + 1 else return 0

/-- The run at the front, in order, and the rest. -/
def splitRun : List Literal → Except Unordered (List Literal × List Literal)
  | [] => .ok ([], [])
  | [x] => .ok ([x], [])
  | x :: y :: rest => do
    let falling ← less y x
    let n := (← runLength falling y rest) + 2
    let all := x :: y :: rest
    return (if falling then (all.take n).reverse else all.take n, all.drop n)

/-- The place of an item among sorted ones, between the positions `low` and `high`. -/
def insertPosition (sorted : Array Literal) (x : Literal) : Nat → Nat → Nat → Except Unordered Nat
  | 0, low, _ => .ok low
  | fuel + 1, low, high => do
    if high ≤ low then return low
    else
      let middle := low + (high - low) / 2
      if ← less x (sorted.getD middle none) then insertPosition sorted x fuel low middle
      else insertPosition sorted x fuel (middle + 1) high

/-- Inserts an item into sorted ones. -/
def insertSorted (sorted : List Literal) (x : Literal) : Except Unordered (List Literal) := do
  let n := sorted.length
  let p ← insertPosition sorted.toArray x (n + 1) 0 n
  return sorted.take p ++ x :: sorted.drop p

/-- The items in order. -/
def sort (items : List Literal) : Except Unordered (List Literal) := do
  let (run, rest) ← splitRun items
  rest.foldlM insertSorted run

end EdgeFacts.Literal
