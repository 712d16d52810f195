/-!
# TOML values and tables

Floats and moments are told apart from the other kinds, and nothing more is kept of them.

A table remembers how it came about, for that decides what may still be added to it. A header or a
pair of braces makes a table once and for all. A header makes the tables on the way to its own too,
and each of those may get a header later. A dotted key makes the tables on its way, and other dotted
keys may add to them.
-/

set_option autoImplicit false

namespace SemanticHighlight.Toml

/-- How a table came about. -/
inductive Origin where
  | header
  /-- On the way to the table of a header. -/
  | implied
  /-- On the way of a dotted key. -/
  | dotted
  | braces
deriving DecidableEq

inductive Value where
  | text (content : String)
  | integer (value : Int)
  | float
  | boolean (value : Bool)
  | moment
  | array (items : List Value)
  | table (origin : Origin) (entries : List (String × Value))
  /-- Tables that each have a header in double brackets. -/
  | tableArray (tables : List (List (String × Value)))

/-- What a table holds, each key once. -/
abbrev Entries := List (String × Value)

end SemanticHighlight.Toml
