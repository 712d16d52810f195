import SemanticHighlight.Hex
import SemanticHighlight.Json.Value

/-!
# String literals

A literal spells each character as it is, by a short escape, or by the four hexadecimal digits of a
16-bit unit. Characters past the 16-bit units are escaped as two units, a leading and a trailing
half. Control characters have to be escaped.

Writing escapes quotes, backslashes and control characters and nothing else.
-/

set_option autoImplicit false

namespace SemanticHighlight.Json

inductive Piece where
  | plain (character : Char)
  /-- A 16-bit unit given by its digits. -/
  | unit (value : Nat)
deriving DecidableEq

def shortEscape? : Char → Option Char
  | '"' => some '"'
  | '\\' => some '\\'
  | '/' => some '/'
  | 'b' => some '\x08'
  | 'f' => some '\x0c'
  | 'n' => some '\n'
  | 'r' => some '\r'
  | 't' => some '\t'
  | _ => none

/-- Reads what follows an opening quote, up to the closing one. -/
def readPieces? : List Char → Option (List Piece × List Char)
  | [] => none
  | '"' :: rest => some ([], rest)
  | '\\' :: 'u' :: first :: second :: third :: fourth :: rest => do
      let unit ← Hex.number? [first, second, third, fourth]
      let (pieces, rest) ← readPieces? rest
      return (.unit unit :: pieces, rest)
  | '\\' :: escape :: rest => do
      let character ← shortEscape? escape
      let (pieces, rest) ← readPieces? rest
      return (.plain character :: pieces, rest)
  | character :: rest => do
      guard (32 ≤ character.toNat)
      let (pieces, rest) ← readPieces? rest
      return (.plain character :: pieces, rest)

def isLeading (unit : Nat) : Bool := 0xD800 ≤ unit && unit < 0xDC00

def isTrailing (unit : Nat) : Bool := 0xDC00 ≤ unit && unit < 0xE000

def joinHalves (leading trailing : Nat) : Char :=
  .ofNat (0x10000 + (leading - 0xD800) * 0x400 + (trailing - 0xDC00))

/-- Puts the pieces of a literal together: `none` when a half stands without the other. -/
def assemble? : List Piece → Option (List Char)
  | [] => some []
  | .plain character :: rest => (assemble? rest).map (character :: ·)
  | .unit leading :: .unit trailing :: rest =>
      if isLeading leading then
        if isTrailing trailing then
          (assemble? rest).map (joinHalves leading trailing :: ·)
        else
          none
      else if isTrailing leading then
        none
      else
        (assemble? (.unit trailing :: rest)).map (.ofNat leading :: ·)
  | .unit unit :: rest =>
      if isLeading unit || isTrailing unit then
        none
      else
        (assemble? rest).map (.ofNat unit :: ·)

def readText? (chars : List Char) : Option (Content × List Char) :=
  (readPieces? chars).map fun (pieces, rest) => ((assemble? pieces).map String.ofList, rest)

def escape (character : Char) : List Char :=
  if character = '"' then ['\\', '"']
  else if character = '\\' then ['\\', '\\']
  else if character = '\x08' then ['\\', 'b']
  else if character = '\x0c' then ['\\', 'f']
  else if character = '\n' then ['\\', 'n']
  else if character = '\r' then ['\\', 'r']
  else if character = '\t' then ['\\', 't']
  else if character.toNat < 32 then
    ['\\', 'u', '0', '0', Hex.digit (character.toNat / 16), Hex.digit (character.toNat % 16)]
  else [character]

/-- Writes a literal with its quotes. Where there is no text, a half without the other stands for
it. -/
def writeText : Content → List Char
  | some text => '"' :: text.toList.flatMap escape ++ ['"']
  | none => ['"', '\\', 'u', 'd', '8', '0', '0', '"']

end SemanticHighlight.Json
