/-!
# Blanks, line ends and comments

A line ends with a line feed, with or without a carriage return in front of it. A comment reaches to
the end of its line and holds no control characters but tabs.
-/

set_option autoImplicit false

namespace SemanticHighlight.Toml

/-- Passes the mark that a text may begin with to tell its encoding. -/
def skipByteOrderMark : List Char → List Char
  | '\ufeff' :: rest => rest
  | chars => chars

def isBlank (character : Char) : Bool :=
  character == ' ' || character == '\t'

def skipBlanks (chars : List Char) : List Char :=
  chars.dropWhile isBlank

/-- Whether a character may stand for itself: every one but control characters, with tabs allowed. -/
def isPrintable (character : Char) : Bool :=
  character == '\t' || (32 ≤ character.toNat && character.toNat != 127)

def passNewline? : List Char → Option (List Char)
  | '\n' :: rest => some rest
  | '\r' :: '\n' :: rest => some rest
  | _ => none

def skipComment : List Char → List Char
  | '#' :: rest => rest.dropWhile isPrintable
  | chars => chars

/-- Passes blanks, a comment and the end of the line or of the text. -/
def passLineEnd? (chars : List Char) : Option (List Char) :=
  match skipComment (skipBlanks chars) with
  | [] => some []
  | rest => passNewline? rest

/-- Passes any number of blanks, comments and line ends, from inside or outside a comment. -/
def skipFiller (inComment : Bool) : List Char → List Char
  | [] => []
  | '\n' :: rest => skipFiller false rest
  | '\r' :: '\n' :: rest => skipFiller false rest
  | character :: rest =>
      if inComment then
        if isPrintable character then skipFiller true rest else character :: rest
      else if isBlank character then skipFiller false rest
      else if character = '#' then skipFiller true rest
      else character :: rest

end SemanticHighlight.Toml
