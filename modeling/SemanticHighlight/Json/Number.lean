import SemanticHighlight.Json.Value

/-!
# Number literals

A number is an integer without leading zeros, with an optional sign in front, and an optional
fraction and exponent behind.
-/

set_option autoImplicit false

namespace SemanticHighlight.Json

/-- Splits off the digits in front; there has to be one. -/
def readDigits? (chars : List Char) : Option (List Char × List Char) :=
  let digits := chars.takeWhile Char.isDigit
  if digits.isEmpty then none else some (digits, chars.dropWhile Char.isDigit)

/-- Splits off digits that do not begin with a needless zero. -/
def readInteger? (chars : List Char) : Option (List Char × List Char) := do
  let (digits, rest) ← readDigits? chars
  guard (digits.head? ≠ some '0' ∨ digits = ['0'])
  return (digits, rest)

def readFraction? : List Char → Option (List Char × List Char)
  | '.' :: rest => do
      let (digits, rest) ← readDigits? rest
      return ('.' :: digits, rest)
  | chars => some ([], chars)

def readSign : List Char → List Char × List Char
  | '+' :: rest => (['+'], rest)
  | '-' :: rest => (['-'], rest)
  | chars => ([], chars)

def readExponent? : List Char → Option (List Char × List Char)
  | [] => some ([], [])
  | mark :: rest =>
      if mark = 'e' ∨ mark = 'E' then do
        let (sign, rest) := readSign rest
        let (digits, rest) ← readDigits? rest
        return (mark :: sign ++ digits, rest)
      else
        some ([], mark :: rest)

def readUnsigned? (chars : List Char) : Option (Value × List Char) := do
  let (digits, rest) ← readInteger? chars
  let (fraction, rest) ← readFraction? rest
  let (exponent, rest) ← readExponent? rest
  if fraction.isEmpty && exponent.isEmpty then
    return (.natural (Nat.ofDigitChars 10 digits 0), rest)
  else
    return (.number (digits ++ fraction ++ exponent), rest)

def readNumber? : List Char → Option (Value × List Char)
  | '-' :: chars => do
      let (digits, rest) ← readInteger? chars
      let (fraction, rest) ← readFraction? rest
      let (exponent, rest) ← readExponent? rest
      return (.number ('-' :: digits ++ fraction ++ exponent), rest)
  | chars => readUnsigned? chars

end SemanticHighlight.Json
