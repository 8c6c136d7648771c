/-
# Tables in order of insertion

A table is a list of names with values. A name that is inserted again keeps its
place and takes the new value. Values by number are kept in lists of pairs.

Key definitions: `Table`, `Table.insert`, `Table.find?`, `lookup?`, `replace`.
Key theorems: `Table.find?_insert_self`, `Table.find?_insert_of_ne`, `Table.find?_ofList`.
-/

namespace EdgeFacts

/-- Values by name, in the order in which the names were first inserted. -/
abbrev Table (α : Type) := List (String × α)

namespace Table

variable {α : Type}

/-- The value of a name. -/
def find? : Table α → String → Option α
  | [], _ => none
  | (key, value) :: rest, name => if key = name then some value else find? rest name

/-- Gives a name a value. -/
def insert : Table α → String → α → Table α
  | [], name, value => [(name, value)]
  | (key, old) :: rest, name, value =>
    if key = name then (key, value) :: rest else (key, old) :: insert rest name value

/-- The table of a list of names with values; of a repeated name the last value counts. -/
def ofList (entries : List (String × α)) : Table α :=
  entries.foldl (fun t e => t.insert e.1 e.2) []

theorem find?_insert_self (t : Table α) (name : String) (value : α) :
    (t.insert name value).find? name = some value := by
  induction t with
  | nil => simp [insert, find?]
  | cons e t ih => by_cases h : e.1 = name <;> simp [insert, find?, h, ih]

theorem find?_insert_of_ne (t : Table α) {name other : String} (value : α) (h : other ≠ name) :
    (t.insert name value).find? other = t.find? other := by
  induction t with
  | nil => simp [insert, find?, Ne.symm h]
  | cons e t ih => by_cases k : e.1 = name <;> simp_all [insert, find?, Ne.symm h]

/-- What a table is given under other names leaves a name its value. -/
theorem find?_foldl_insert {name : String} : ∀ {entries : List (String × α)} {t : Table α},
    name ∉ entries.map Prod.fst → find? (entries.foldl (fun t e => t.insert e.1 e.2) t) name = t.find? name
  | [], _, _ => rfl
  | e :: entries, t, h => by
    rw [List.map_cons, List.mem_cons, not_or] at h
    rw [List.foldl_cons, find?_foldl_insert h.2, find?_insert_of_ne t e.2 h.1]

/-- In the table of a list of different names each name has its value. -/
theorem find?_ofList {name : String} {value : α} {entries : List (String × α)}
    (hnames : (entries.map Prod.fst).Nodup) (hmem : (name, value) ∈ entries) :
    (ofList entries).find? name = some value := by
  have hfrom : ∀ {entries : List (String × α)} {t : Table α}, (entries.map Prod.fst).Nodup →
      (name, value) ∈ entries →
      find? (entries.foldl (fun t e => t.insert e.1 e.2) t) name = some value := by
    intro entries
    induction entries with
    | nil => exact fun _ he => nomatch he
    | cons e entries ih =>
      intro t hn he
      rw [List.map_cons, List.nodup_cons] at hn
      rw [List.foldl_cons]
      rcases List.mem_cons.1 he with rfl | he
      · rw [find?_foldl_insert hn.1, find?_insert_self]
      · exact ih hn.2 he
  exact hfrom hnames hmem

theorem mem_insert {t : Table α} {name : String} {value : α} {e : String × α} (h : e ∈ t.insert name value) :
    e ∈ t ∨ e = (name, value) := by
  induction t with
  | nil => exact .inr (List.mem_singleton.1 h)
  | cons d t ih =>
    rw [insert] at h
    split at h
    · rename_i hkey
      rcases List.mem_cons.1 h with rfl | h
      · exact .inr (by rw [hkey])
      · exact .inl (.tail _ h)
    · rcases List.mem_cons.1 h with rfl | h
      · exact .inl (.head _)
      · exact (ih h).imp_left (.tail _)

/-- What is in a table was given to it. -/
theorem mem_of_mem_ofList {entries : List (String × α)} {e : String × α} (h : e ∈ ofList entries) : e ∈ entries := by
  have hfrom : ∀ {entries : List (String × α)} {t : Table α},
      e ∈ entries.foldl (fun t e => t.insert e.1 e.2) t → e ∈ t ∨ e ∈ entries := by
    intro entries
    induction entries with
    | nil => exact fun h => .inl h
    | cons c entries ih =>
      intro t h
      rcases ih h with h | h
      · refine (mem_insert h).imp_right ?_
        rintro rfl
        exact .head _
      · exact .inr (.tail _ h)
  exact (hfrom h).resolve_left fun h => nomatch h

end Table

/-! ### Entries by number -/

/-- What a list of pairs gives for a number. -/
def lookup? {α : Type} (entries : List (Nat × α)) (i : Nat) : Option α :=
  (entries.find? (·.1 = i)).map (·.2)

/-- Gives a number a new value. -/
def replace {α : Type} (entries : List (Nat × α)) (i : Nat) (x : α) : List (Nat × α) :=
  entries.map fun e => if e.1 = i then (i, x) else e

end EdgeFacts
