/-!
# JSON values

A value keeps of its text what a typed form may depend on: whether a number is written as a plain
integer, and every member of an object in its place, also where keys are repeated.
-/

set_option autoImplicit false

namespace SemanticHighlight.Json

/-- What a string literal stands for: `none` when it escapes half of a surrogate pair, so that it
spells no text. -/
abbrev Content := Option String

inductive Value where
  | null
  | boolean (value : Bool)
  /-- An integer written with digits alone. -/
  | natural (value : Nat)
  /-- Any other number, as it is written. -/
  | number (literal : List Char)
  | text (content : Content)
  | array (items : List Value)
  | object (members : List (Content × Value))

def Value.ofString (text : String) : Value :=
  .text (some text)

def Value.record (members : List (String × Value)) : Value :=
  .object (members.map fun member => (some member.1, member.2))

end SemanticHighlight.Json
