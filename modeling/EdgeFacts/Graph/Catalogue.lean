/-
# Catalogues of models

A catalogue has modules by name and a module has members by name. A reference
names a module and a member with a colon between them; the member is to be a
factory of models, and what it makes is to be a valid model (`Catalogue.load`).

Key definitions: `Member`, `Catalogue`, `Catalogue.find`, `Catalogue.load`.
Key theorems: `Catalogue.validate_of_load`.
-/
import EdgeFacts.Graph.Basic
import EdgeFacts.Text.Split

namespace EdgeFacts

/-- A member of a module. -/
inductive Member where
  /-- A factory that makes a model, or fails to. -/
  | modelFactory (model : Except Failure Model)
  /-- A factory that makes something else, of the given kind. -/
  | otherFactory (kind : String)
  /-- No factory at all. -/
  | value

/-- Modules by name, and their members by name. -/
abbrev Catalogue := Table (Table Member)

namespace Catalogue

/-- The module with a name. No module has others below it, so a name of several
parts fails at its second part. -/
def findModule (c : Catalogue) (name : String) : Except LookupFault (Table Member) :=
  match (Text.splitAt '.' name.toList).map String.ofList with
  | top :: rest =>
    match c.find? top, rest with
    | some members, [] => .ok members
    | some _, next :: _ => .error (.notPackage (top ++ "." ++ next) top)
    | none, _ => .error (.noModule top)
  | [] => .error (.noModule name)

/-- The member of a module. -/
def find (c : Catalogue) (moduleName name : String) : Except LookupFault Member := do
  match (← c.findModule moduleName).find? name with
  | some m => return m
  | none => throw (.noMember moduleName name)

/-- What a member makes for a reference to it. -/
def make (reference : String) : Member → Except Failure Model
  | .modelFactory model => model
  | .otherFactory kind => .error (.input (.notModel reference kind))
  | .value => .error (.primitive .wrongKind)

/-- The parts of a reference to a member, neither of them empty. -/
def parseReference (reference : String) : Except Failure (String × String) :=
  match Text.cutAt? ':' reference.toList with
  | some (m :: moduleName, n :: name) =>
    .ok (String.ofList (m :: moduleName), String.ofList (n :: name))
  | _ => .error (.input .notFactory)

/-- The valid model that a reference leads to. The name of a module is absolute:
it does not begin with a dot. -/
def load (c : Catalogue) (reference : String) : Except Failure Model := do
  let (moduleName, name) ← parseReference reference
  if moduleName.toList.head? = some '.' then throw (.primitive .wrongKind)
  match c.find moduleName name with
  | .error fault => throw (.input (.factoryUnusable reference fault))
  | .ok m =>
    let model ← make reference m
    model.validate
    return model

/-- Only valid models are loaded. -/
theorem validate_of_load {c : Catalogue} {reference : String} {model : Model}
    (h : c.load reference = .ok model) : model.validate = .ok () := by
  unfold load at h
  cases hp : parseReference reference with
  | error e => simp [hp, bind, Except.bind] at h
  | ok parts =>
    simp only [hp, bind, Except.bind] at h
    split at h
    · simp [throw, throwThe, MonadExceptOf.throw] at h
    · cases hf : c.find parts.1 parts.2 with
      | error fault => simp [hf, throw, throwThe, MonadExceptOf.throw] at h
      | ok m =>
        simp only [hf, pure, Except.pure] at h
        cases hm : make reference m with
        | error e => simp [hm] at h
        | ok made =>
          simp only [hm] at h
          cases hv : made.validate with
          | error e => simp [hv] at h
          | ok u =>
            simp only [hv, Except.ok.injEq] at h
            exact h ▸ hv

end Catalogue

end EdgeFacts
