/-
# Paths

A path is a root, which a relative path has none of, and the names of its parts.
Empty parts and parts that stand for the directory itself are left out, and those
for the directory above are kept, for it may be reached through a link. Two
slashes in front are a root of their own, more are as good as one.

Key definitions: `Path`, `Path.ofText`, `Path.text`, `Path.below?`, `Path.fault?`.
Key theorems: `Path.below?_child`.
-/
import EdgeFacts.Text.Split

namespace EdgeFacts

/-- A path in a file system. -/
structure Path where
  /-- The slashes in front: none, one or two. -/
  root : String
  parts : List String
deriving DecidableEq, Repr

namespace Path

/-- The root of a path with the given number of slashes in front. -/
def rootOf (slashes : Nat) : String :=
  if slashes = 0 then "" else if slashes = 2 then "//" else "/"

/-- The path that a text describes. -/
def ofText (s : String) : Path where
  root := rootOf (s.toList.takeWhile (· = '/')).length
  parts := (Text.splitAt '/' s.toList).filterMap fun part =>
    if part.isEmpty || part = ['.'] then none else some (String.ofList part)

/-- The path of a member of the directory. -/
def child (p : Path) (name : String) : Path := { p with parts := p.parts ++ [name] }

/-- The directory that a path's last part is in. -/
def parent (p : Path) : Path := { p with parts := p.parts.dropLast }

/-- The text of a path; that of a path without parts or root is a dot. -/
def text (p : Path) : String :=
  if p.root.isEmpty && p.parts.isEmpty then "." else p.root ++ String.intercalate "/" p.parts

/-- The parts that lead on from a directory, the last first, if they stay below
the one that the path starts from. -/
def descend : List String → List String → Option (List String)
  | way, [] => some way
  | way, part :: parts =>
    if part = ".." then
      match way with
      | [] => none
      | _ :: way => descend way parts
    else descend (part :: way) parts

/-- The names below the working directory under which a relative path ends, if
it does not leave that directory. -/
def below? (p : Path) : Option (List String) :=
  if p.root.isEmpty then (descend [] p.parts).map List.reverse else none

/-- Why no file can have a path. -/
inductive Fault where
  /-- The path has a character that ends it. -/
  | terminated
  /-- A name or the whole path has too many bytes. -/
  | tooLong
deriving DecidableEq, Repr

/-- The most bytes of a name. -/
def maxName : Nat := 255

/-- The most bytes of a path. -/
def maxLength : Nat := 4095

/-- Why no file can have the path. -/
def fault? (p : Path) : Option Fault :=
  if p.text.toList.contains (Char.ofNat 0) then some .terminated
  else if maxLength < p.text.utf8ByteSize || p.parts.any (maxName < ·.utf8ByteSize) then
    some .tooLong
  else none

theorem descend_append (way xs ys : List String) :
    descend way (xs ++ ys) = (descend way xs).bind (descend · ys) := by
  induction xs generalizing way with
  | nil => simp [descend]
  | cons x xs ih =>
    simp only [List.cons_append, descend]
    split
    · cases way <;> simp [ih]
    · exact ih _

/-- A member of a directory below the working directory is below it too. -/
theorem below?_child {p : Path} {name : String} {names : List String}
    (h : p.below? = some names) (plain : name ≠ "..") :
    (p.child name).below? = some (names ++ [name]) := by
  unfold below? at h ⊢
  split at h
  · next root =>
    obtain ⟨way, hw, rfl⟩ := Option.map_eq_some_iff.1 h
    simp [child, root, descend_append, hw, descend, plain]
  · simp at h

end Path

end EdgeFacts
