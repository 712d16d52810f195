import SemanticHighlight.Hex
import SemanticHighlight.Toml.Blank

/-!
# Strings

A string is basic, with escapes, or literal, without; and each of the two stands on one line or
between triple quotes on several. A long string leaves out a line end right behind its opening, may
hold one or two quotes in a row, and may end in up to two quotes of its own. In a long basic string
a backslash at the end of a line joins it to the next visible character.
-/

set_option autoImplicit false

namespace SemanticHighlight.Toml

def shortEscape? : Char → Option Char
  | '"' => some '"'
  | '\\' => some '\\'
  | 'b' => some '\x08'
  | 'f' => some '\x0c'
  | 'n' => some '\n'
  | 'r' => some '\r'
  | 't' => some '\t'
  | _ => none

def scalar? (digits : List Char) : Option Char := do
  let number ← Hex.number? digits
  guard (number < 0xD800 ∨ 0xE000 ≤ number ∧ number < 0x110000)
  return .ofNat number

def readBasic? : List Char → Option (List Char × List Char)
  | [] => none
  | '"' :: rest => some ([], rest)
  | '\\' :: 'u' :: d1 :: d2 :: d3 :: d4 :: rest => do
      let character ← scalar? [d1, d2, d3, d4]
      let (content, rest) ← readBasic? rest
      return (character :: content, rest)
  | '\\' :: 'U' :: d1 :: d2 :: d3 :: d4 :: d5 :: d6 :: d7 :: d8 :: rest => do
      let character ← scalar? [d1, d2, d3, d4, d5, d6, d7, d8]
      let (content, rest) ← readBasic? rest
      return (character :: content, rest)
  | '\\' :: escape :: rest => do
      let character ← shortEscape? escape
      let (content, rest) ← readBasic? rest
      return (character :: content, rest)
  | character :: rest => do
      guard (isPrintable character)
      let (content, rest) ← readBasic? rest
      return (character :: content, rest)

def readLiteral? : List Char → Option (List Char × List Char)
  | [] => none
  | '\x27' :: rest => some ([], rest)
  | character :: rest => do
      guard (isPrintable character)
      let (content, rest) ← readLiteral? rest
      return (character :: content, rest)

/-- What a long basic string is made of. -/
inductive LongPiece where
  /-- A character that stands for itself, or a line end. -/
  | plain (character : Char)
  | escaped (character : Char)
  /-- A backslash in front of a blank or a line end. -/
  | join
deriving DecidableEq

def readLongPieces? : List Char → Option (List LongPiece × List Char)
  | '"' :: '"' :: '"' :: '"' :: '"' :: rest => some ([.plain '"', .plain '"'], rest)
  | '"' :: '"' :: '"' :: '"' :: rest => some ([.plain '"'], rest)
  | '"' :: '"' :: '"' :: rest => some ([], rest)
  | [] => none
  | '\\' :: 'u' :: d1 :: d2 :: d3 :: d4 :: rest => do
      let character ← scalar? [d1, d2, d3, d4]
      let (pieces, rest) ← readLongPieces? rest
      return (.escaped character :: pieces, rest)
  | '\\' :: 'U' :: d1 :: d2 :: d3 :: d4 :: d5 :: d6 :: d7 :: d8 :: rest => do
      let character ← scalar? [d1, d2, d3, d4, d5, d6, d7, d8]
      let (pieces, rest) ← readLongPieces? rest
      return (.escaped character :: pieces, rest)
  | '\\' :: ' ' :: rest =>
      (readLongPieces? rest).map fun (pieces, rest) => (.join :: .plain ' ' :: pieces, rest)
  | '\\' :: '\t' :: rest =>
      (readLongPieces? rest).map fun (pieces, rest) => (.join :: .plain '\t' :: pieces, rest)
  | '\\' :: '\n' :: rest =>
      (readLongPieces? rest).map fun (pieces, rest) => (.join :: .plain '\n' :: pieces, rest)
  | '\\' :: '\r' :: '\n' :: rest =>
      (readLongPieces? rest).map fun (pieces, rest) => (.join :: .plain '\n' :: pieces, rest)
  | '\\' :: escape :: rest => do
      let character ← shortEscape? escape
      let (pieces, rest) ← readLongPieces? rest
      return (.escaped character :: pieces, rest)
  | '\n' :: rest => (readLongPieces? rest).map fun (pieces, rest) => (.plain '\n' :: pieces, rest)
  | '\r' :: '\n' :: rest =>
      (readLongPieces? rest).map fun (pieces, rest) => (.plain '\n' :: pieces, rest)
  | character :: rest => do
      guard (isPrintable character)
      let (pieces, rest) ← readLongPieces? rest
      return (.plain character :: pieces, rest)

/-- How far a joint between lines has got. -/
inductive Joint where
  /-- There is none. -/
  | outside
  /-- Its line end has not come yet. -/
  | lineEnd
  /-- What follows is left out up to a visible character. -/
  | gap
deriving DecidableEq

def joinLines? : Joint → List LongPiece → Option (List Char)
  | .lineEnd, [] => none
  | _, [] => some []
  | .lineEnd, .plain character :: rest =>
      if character = '\n' then joinLines? .gap rest
      else if isBlank character then joinLines? .lineEnd rest
      else none
  | .lineEnd, _ :: _ => none
  | joint, .plain character :: rest =>
      if joint = .gap ∧ (character = '\n' ∨ isBlank character) then
        joinLines? .gap rest
      else
        (joinLines? .outside rest).map (character :: ·)
  | _, .escaped character :: rest => (joinLines? .outside rest).map (character :: ·)
  | _, .join :: rest => joinLines? .lineEnd rest

def readLongLiteral? : List Char → Option (List Char × List Char)
  | '\x27' :: '\x27' :: '\x27' :: '\x27' :: '\x27' :: rest => some (['\x27', '\x27'], rest)
  | '\x27' :: '\x27' :: '\x27' :: '\x27' :: rest => some (['\x27'], rest)
  | '\x27' :: '\x27' :: '\x27' :: rest => some ([], rest)
  | [] => none
  | '\n' :: rest => (readLongLiteral? rest).map fun (content, rest) => ('\n' :: content, rest)
  | '\r' :: '\n' :: rest =>
      (readLongLiteral? rest).map fun (content, rest) => ('\n' :: content, rest)
  | character :: rest => do
      guard (isPrintable character)
      let (content, rest) ← readLongLiteral? rest
      return (character :: content, rest)

def skipNewline (chars : List Char) : List Char :=
  (passNewline? chars).getD chars

def readShortText? : List Char → Option (List Char × List Char)
  | '"' :: rest => readBasic? rest
  | '\x27' :: rest => readLiteral? rest
  | _ => none

def readText? : List Char → Option (List Char × List Char)
  | '"' :: '"' :: '"' :: rest => do
      let (pieces, rest) ← readLongPieces? (skipNewline rest)
      let content ← joinLines? .outside pieces
      return (content, rest)
  | '\x27' :: '\x27' :: '\x27' :: rest => readLongLiteral? (skipNewline rest)
  | chars => readShortText? chars

end SemanticHighlight.Toml
