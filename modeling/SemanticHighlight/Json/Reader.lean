import SemanticHighlight.Json.Number
import SemanticHighlight.Json.Text

/-!
# Reading JSON

A text is one value with blanks around it. Values may be nested to any depth. The reader spends
one unit of fuel at each value, item and member; a text as long as the fuel never runs out of it.
-/

set_option autoImplicit false

namespace SemanticHighlight.Json

def isBlank (character : Char) : Bool :=
  character == ' ' || character == '\t' || character == '\n' || character == '\r'

def skipBlanks (chars : List Char) : List Char :=
  chars.dropWhile isBlank

mutual

def readValue? : Nat → List Char → Option (Value × List Char)
  | 0, _ => none
  | fuel + 1, chars =>
      match chars with
      | 'n' :: 'u' :: 'l' :: 'l' :: rest => some (.null, rest)
      | 't' :: 'r' :: 'u' :: 'e' :: rest => some (.boolean true, rest)
      | 'f' :: 'a' :: 'l' :: 's' :: 'e' :: rest => some (.boolean false, rest)
      | '"' :: rest => (readText? rest).map fun (content, rest) => (.text content, rest)
      | '[' :: rest =>
          match skipBlanks rest with
          | ']' :: rest => some (.array [], rest)
          | rest => (readItems? fuel rest).map fun (items, rest) => (.array items, rest)
      | '\x7b' :: rest =>
          match skipBlanks rest with
          | '\x7d' :: rest => some (.object [], rest)
          | rest => (readMembers? fuel rest).map fun (members, rest) => (.object members, rest)
      | chars => readNumber? chars

/-- Reads the items of an array from the first of them to the closing bracket. -/
def readItems? : Nat → List Char → Option (List Value × List Char)
  | 0, _ => none
  | fuel + 1, chars => do
      let (item, rest) ← readValue? fuel chars
      match skipBlanks rest with
      | ']' :: rest => return ([item], rest)
      | ',' :: rest =>
          let (items, rest) ← readItems? fuel (skipBlanks rest)
          return (item :: items, rest)
      | _ => none

/-- Reads the members of an object from the first of them to the closing brace. -/
def readMembers? : Nat → List Char → Option (List (Content × Value) × List Char)
  | 0, _ => none
  | fuel + 1, chars =>
      match chars with
      | '"' :: rest => do
          let (key, rest) ← readText? rest
          match skipBlanks rest with
          | ':' :: rest =>
              let (value, rest) ← readValue? fuel (skipBlanks rest)
              match skipBlanks rest with
              | '\x7d' :: rest => return ([(key, value)], rest)
              | ',' :: rest =>
                  let (members, rest) ← readMembers? fuel (skipBlanks rest)
                  return ((key, value) :: members, rest)
              | _ => none
          | _ => none
      | _ => none

end

def parse? (text : String) : Option Value := do
  let chars := text.toList
  let (value, rest) ← readValue? (chars.length + 1) (skipBlanks chars)
  guard (skipBlanks rest).isEmpty
  return value

end SemanticHighlight.Json
