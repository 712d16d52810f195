import SemanticHighlight.Toml.Moment
import SemanticHighlight.Toml.Number
import SemanticHighlight.Toml.Table
import SemanticHighlight.Toml.Text

/-!
# Reading TOML

A text is a list of lines, each empty, a header, or a key with its value. Arrays and tables in
braces may be nested less than eighty deep, and a key may have less than eighty parts.

The readers of lists spend one unit of fuel at each element; a text as long as the fuel never runs
out of it.
-/

set_option autoImplicit false

namespace SemanticHighlight.Toml

/-- How deep values may be nested, and how many parts a key may have. -/
def depthLimit : Nat := 79

def isBareKey (character : Char) : Bool :=
  character.isAlphanum || character == '_' || character == '-'

def readKeyPart? (chars : List Char) : Option (String × List Char) :=
  match chars with
  | [] => none
  | first :: _ =>
      if first = '"' ∨ first = '\x27' then
        (readShortText? chars).map fun (content, rest) => (.ofList content, rest)
      else if isBareKey first then
        some (.ofList (chars.takeWhile isBareKey), chars.dropWhile isBareKey)
      else
        none

/-- Reads a key of at most so many parts, with the blanks around it. -/
def readKey? : Nat → List Char → Option (List String × List Char)
  | 0, _ => none
  | parts + 1, chars => do
      let (part, rest) ← readKeyPart? (skipBlanks chars)
      match skipBlanks rest with
      | '.' :: rest =>
          let (path, rest) ← readKey? parts rest
          return (part :: path, rest)
      | rest => return ([part], rest)

/-- Reads a key and the sign behind it, up to the value. -/
def readAssignee? (chars : List Char) : Option (List String × List Char) := do
  let (path, rest) ← readKey? depthLimit chars
  let rest ← pass? '=' rest
  return (path, skipBlanks rest)

/-- Reads a value that holds no others. -/
def readScalar? (chars : List Char) : Option (Value × List Char) :=
  match chars with
  | 't' :: 'r' :: 'u' :: 'e' :: rest => some (.boolean true, rest)
  | 'f' :: 'a' :: 'l' :: 's' :: 'e' :: rest => some (.boolean false, rest)
  | chars =>
      ((readText? chars).map fun (content, rest) => (.text (.ofList content), rest)) <|>
        readMoment? chars <|> readNumber? chars

mutual

def readValue? (depth : Nat) : Nat → List Char → Option (Value × List Char)
  | 0, _ => none
  | fuel + 1, chars =>
      match chars with
      | '[' :: rest => do
          guard (depth ≠ 0)
          let (items, rest) ← readItems? (depth - 1) fuel (skipFiller false rest)
          return (.array items, rest)
      | '\x7b' :: rest => do
          guard (depth ≠ 0)
          match skipBlanks rest with
          | '\x7d' :: rest => return (.table .braces [], rest)
          | rest =>
              let (entries, rest) ← readEntries? (depth - 1) [] fuel rest
              return (.table .braces entries, rest)
      | chars => readScalar? chars

def readItems? (depth : Nat) : Nat → List Char → Option (List Value × List Char)
  | 0, _ => none
  | fuel + 1, chars =>
      match chars with
      | ']' :: rest => some ([], rest)
      | chars => do
          let (item, rest) ← readValue? depth fuel chars
          match skipFiller false rest with
          | ']' :: rest => return ([item], rest)
          | ',' :: rest =>
              let (items, rest) ← readItems? depth fuel (skipFiller false rest)
              return (item :: items, rest)
          | _ => none

/-- Adds the entries of a table in braces to those already read, up to the closing brace. -/
def readEntries? (depth : Nat) (entries : Entries) : Nat → List Char → Option (Entries × List Char)
  | 0, _ => none
  | fuel + 1, chars => do
      let (path, rest) ← readAssignee? chars
      let (value, rest) ← readValue? depth fuel rest
      let entries ← entries.assign? value path
      match skipBlanks rest with
      | '\x7d' :: rest => return (entries, rest)
      | ',' :: rest => readEntries? depth entries fuel rest
      | _ => none

end

/-- Reads a header behind its opening bracket or brackets, up to the end of its line. -/
def readHeader? (closing : List Char) (chars : List Char) : Option (List String × List Char) := do
  let (path, rest) ← readKey? depthLimit chars
  guard (closing.isPrefixOf rest)
  let rest ← passLineEnd? (rest.drop closing.length)
  return (path, rest)

def readStatements? : Nat → List Char → Option (List Statement)
  | 0, _ => none
  | fuel + 1, chars =>
      match skipBlanks chars with
      | [] => some []
      | '[' :: '[' :: rest => do
          let (path, rest) ← readHeader? [']', ']'] rest
          return .element path :: (← readStatements? fuel rest)
      | '[' :: rest => do
          let (path, rest) ← readHeader? [']'] rest
          return .table path :: (← readStatements? fuel rest)
      | chars =>
          match passLineEnd? chars with
          | some rest => readStatements? fuel rest
          | none => do
              let (path, rest) ← readAssignee? chars
              let (value, rest) ← readValue? depthLimit fuel rest
              let rest ← passLineEnd? rest
              return .assign path value :: (← readStatements? fuel rest)

def parse? (text : String) : Option Entries := do
  let chars := skipByteOrderMark text.toList
  let statements ← readStatements? (chars.length + 1) chars
  build? [] [] statements

end SemanticHighlight.Toml
