import SemanticHighlight.Hex
import SemanticHighlight.Toml.Value

/-!
# Numbers

Digits may be parted by single underscores. An integer has to fit into 64 bits with its sign; one
in base 16, 8 or 2 has no sign. A float has a fraction or an exponent or both, and may not be so
great that it would be taken for infinity; far below zero, that is let pass.
-/

set_option autoImplicit false

namespace SemanticHighlight.Toml

/-- Splits off digits, each of which may have an underscore in front. -/
def moreDigits (isDigit : Char → Bool) : List Char → List Char × List Char
  | [] => ([], [])
  | '_' :: digit :: rest =>
      if isDigit digit then
        let (digits, rest) := moreDigits isDigit rest
        (digit :: digits, rest)
      else
        ([], '_' :: digit :: rest)
  | digit :: rest =>
      if isDigit digit then
        let (digits, rest) := moreDigits isDigit rest
        (digit :: digits, rest)
      else
        ([], digit :: rest)

/-- Splits off digits, with underscores between them; there has to be one. -/
def readDigits? (isDigit : Char → Bool) : List Char → Option (List Char × List Char)
  | [] => none
  | digit :: rest =>
      if isDigit digit then
        let (digits, rest) := moreDigits isDigit rest
        some (digit :: digits, rest)
      else
        none

/-- Splits off digits of base ten, with no zero in front of others. -/
def readWhole? : List Char → Option (List Char × List Char)
  | '0' :: rest => some (['0'], rest)
  | chars => readDigits? Char.isDigit chars

/-- Splits off a sign, where there is one, and tells whether it is a minus. -/
def readSign : List Char → Bool × List Char
  | '+' :: rest => (false, rest)
  | '-' :: rest => (true, rest)
  | chars => (false, chars)

def digitsValue (base : Nat) (digits : List Char) : Nat :=
  digits.foldl (fun value digit => base * value + (Hex.digit? digit).getD 0) 0

def isDigitOf (base : Nat) (character : Char) : Bool :=
  (Hex.digit? character).any fun value => decide (value < base)

/-- The smallest number that is too great for an integer. -/
def integerBound : Nat := Nat.pow 2 63

/-- Reads an integer of another base than ten, behind its mark. -/
def readBased? (base : Nat) (chars : List Char) : Option (Value × List Char) := do
  let (digits, rest) ← readDigits? (isDigitOf base) chars
  let value := digitsValue base digits
  guard (value < integerBound)
  return (.integer value, rest)

/-- The smallest number that is nearer to infinity than to any float. -/
def floatBound : Nat := Nat.pow 2 1024 - Nat.pow 2 970

/-- Whether the digits, times ten to the exponent, are too great for a float. The count of digits
decides unless the number is near the bound. -/
def exceedsFloat (digits : List Char) (exponent : Int) : Bool :=
  let significant := digits.dropWhile (· == '0')
  let magnitude : Int := significant.length + exponent
  let mantissa := digitsValue 10 significant
  if significant.isEmpty || magnitude ≤ 308 then false
  else if 310 ≤ magnitude then true
  else if 0 ≤ exponent then floatBound ≤ mantissa * Nat.pow 10 exponent.toNat
  else floatBound * Nat.pow 10 (-exponent).toNat ≤ mantissa

/-- Splits off a point with its digits: none where there is no point. -/
def readFraction? : List Char → Option (List Char × List Char)
  | '.' :: rest => readDigits? Char.isDigit rest
  | chars => some ([], chars)

def readExponent? : List Char → Option (Option Int × List Char)
  | [] => some (none, [])
  | mark :: rest =>
      if mark = 'e' ∨ mark = 'E' then do
        let (negative, rest) := readSign rest
        let (digits, rest) ← readDigits? Char.isDigit rest
        let value : Int := digitsValue 10 digits
        return (some (if negative then -value else value), rest)
      else
        some (none, mark :: rest)

def readDecimal? (negative : Bool) (chars : List Char) : Option (Value × List Char) := do
  let (whole, rest) ← readWhole? chars
  let (fraction, rest) ← readFraction? rest
  let (exponent, rest) ← readExponent? rest
  if fraction.isEmpty && exponent.isNone then
    let value : Int := digitsValue 10 whole
    let value := if negative then -value else value
    guard (-(integerBound : Int) ≤ value ∧ value < integerBound)
    return (.integer value, rest)
  else
    let exponent := exponent.getD 0 - fraction.length
    guard (negative || !exceedsFloat (whole ++ fraction) exponent)
    return (.float, rest)

def readNumber? : List Char → Option (Value × List Char)
  | '0' :: 'x' :: rest => readBased? 16 rest
  | '0' :: 'o' :: rest => readBased? 8 rest
  | '0' :: 'b' :: rest => readBased? 2 rest
  | chars =>
      let (negative, rest) := readSign chars
      match rest with
      | 'i' :: 'n' :: 'f' :: rest => some (.float, rest)
      | 'n' :: 'a' :: 'n' :: rest => some (.float, rest)
      | rest => readDecimal? negative rest

end SemanticHighlight.Toml
