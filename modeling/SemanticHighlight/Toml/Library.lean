import SemanticHighlight.Record
import SemanticHighlight.Toml.Reader

/-!
# Typed values from TOML

A library reads a text into its root table, and flags and lists of names from values. Reading with
the library that runs is strict about kinds: no kind stands in for another.
-/

set_option autoImplicit false

namespace SemanticHighlight.Toml

/-- What texts and the contents of records are read with. -/
structure Library where
  /-- Reads a text into the entries of its root table. -/
  read? : String → Option Entries
  records : RecordReader Value
  flag? : Value → Option Bool
  /-- Reads a list of names that may be left out. -/
  names? : Value → Option (Option (List String))

def flag? : Value → Option Bool
  | .boolean value => some value
  | _ => none

def nameOf? : Value → Option String
  | .text name => some name
  | _ => none

def names? : Value → Option (Option (List String))
  | .array items => (items.mapM nameOf?).map some
  | _ => none

def library : Library where
  read? := parse?
  records := .tracking Value
  flag?
  names?

end SemanticHighlight.Toml
