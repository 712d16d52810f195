import SemanticHighlight.Toml.Value

/-!
# Building tables

A document is a list of statements about one root table. A header chooses the table that the
assignments behind it speak of, and makes it; a key may be set once.
-/

set_option autoImplicit false

namespace SemanticHighlight.Toml

namespace Entries

def get? (key : String) : Entries → Option Value
  | [] => none
  | (name, value) :: entries => if name = key then some value else get? key entries

/-- Gives a key a new value in its place, or adds it behind all others. -/
def set (key : String) (value : Value) : Entries → Entries
  | [] => [(key, value)]
  | (name, old) :: entries =>
      if name = key then (key, value) :: entries else (name, old) :: set key value entries

theorem get?_set_self (key : String) (value : Value) (entries : Entries) :
    (entries.set key value).get? key = some value := by
  induction entries with
  | nil => simp [set, get?]
  | cons entry entries inductionHypothesis =>
      unfold set
      split
      · simp [get?]
      · simp [get?, *]

theorem get?_set_of_ne {key other : String} (value : Value) (apart : other ≠ key)
    (entries : Entries) : (entries.set key value).get? other = entries.get? other := by
  induction entries with
  | nil => simp [set, get?, Ne.symm apart]
  | cons entry entries inductionHypothesis =>
      unfold set
      split
      · rename_i same
        simp [get?, same, Ne.symm apart]
      · simp only [get?, inductionHypothesis]

/-- Sets a key at the end of a dotted path, which may go through tables that other dotted keys made
and, but for the last step, through tables implied by headers. Of an array of tables the last one is
meant. -/
def assign? (value : Value) : List String → Entries → Option Entries
  | [], _ => none
  | [key], entries => if (entries.get? key).isNone then some (entries.set key value) else none
  | key :: next :: path, entries =>
      match entries.get? key with
      | none =>
          (assign? value (next :: path) []).map fun inner => entries.set key (.table .dotted inner)
      | some (.table origin inner) =>
          if origin = .dotted ∨ origin = .implied ∧ path ≠ [] then
            (assign? value (next :: path) inner).map fun inner =>
              entries.set key (.table origin inner)
          else
            none
      | some (.tableArray tables) =>
          match tables.getLast? with
          | some inner =>
              if path ≠ [] then
                (assign? value (next :: path) inner).map fun inner =>
                  entries.set key (.tableArray (tables.dropLast ++ [inner]))
              else
                none
          | none => none
      | some _ => none

/-- Changes the table at the end of a header's path, making the tables on the way that are missing.
Of an array of tables the last one is meant. -/
def update? (change : Entries → Option Entries) : List String → Entries → Option Entries
  | [], entries => change entries
  | key :: path, entries =>
      match entries.get? key with
      | none => (update? change path []).map fun inner => entries.set key (.table .implied inner)
      | some (.table origin inner) =>
          if origin = .braces then
            none
          else
            (update? change path inner).map fun inner => entries.set key (.table origin inner)
      | some (.tableArray tables) =>
          match tables.getLast? with
          | some inner =>
              (update? change path inner).map fun inner =>
                entries.set key (.tableArray (tables.dropLast ++ [inner]))
          | none => none
      | some _ => none

/-- Makes the table of a header. -/
def define? (key : String) (entries : Entries) : Option Entries :=
  match entries.get? key with
  | none => some (entries.set key (.table .header []))
  | some (.table .implied inner) => some (entries.set key (.table .header inner))
  | some _ => none

def append? (key : String) (entries : Entries) : Option Entries :=
  match entries.get? key with
  | none => some (entries.set key (.tableArray [[]]))
  | some (.tableArray tables) => some (entries.set key (.tableArray (tables ++ [[]])))
  | some _ => none

end Entries

inductive Statement where
  /-- A key, its dots taken apart, and its value. -/
  | assign (path : List String) (value : Value)
  | table (path : List String)
  /-- A header in double brackets. -/
  | element (path : List String)

/-- Carries out statements, the assignments about the table at the path `header`. -/
def build? (header : List String) (root : Entries) : List Statement → Option Entries
  | [] => some root
  | .assign path value :: statements => do
      let root ← root.update? (Entries.assign? value path) header
      build? header root statements
  | .table path :: statements => do
      let key ← path.getLast?
      let root ← root.update? (Entries.define? key) path.dropLast
      build? path root statements
  | .element path :: statements => do
      let key ← path.getLast?
      let root ← root.update? (Entries.append? key) path.dropLast
      build? path root statements

end SemanticHighlight.Toml
