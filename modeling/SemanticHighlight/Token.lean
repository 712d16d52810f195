import SemanticHighlight.Position
import SemanticHighlight.Word

/-!
# Tokens

A token colours a stretch of one line. Its type and modifiers are numbers that a legend gives
names to.
-/

set_option autoImplicit false

namespace SemanticHighlight

structure Token where
  line : UInt32
  start : UInt32
  length : UInt32
  /-- The index of the type's name in the legend. -/
  typeId : UInt32
  /-- One bit for each modifier, by its index in the legend. -/
  modifiers : UInt32
deriving DecidableEq

namespace Token

def position (token : Token) : Position :=
  ⟨token.line, token.start⟩

/-- The column behind the last character, held at the greatest column. -/
def stop (token : Token) : UInt32 :=
  Word.saturatedSum token.start token.length

instance : Ord Token where
  compare := compareLex (compareOn Token.line) <| compareLex (compareOn Token.start) <|
    compareLex (compareOn Token.length) <| compareLex (compareOn Token.typeId) <|
    compareOn Token.modifiers

/-- Orders tokens by line, start, length, type and modifiers, the earlier field deciding first. -/
def precedes (left right : Token) : Bool :=
  (compare left right).isLE

def sort (tokens : List Token) : List Token :=
  tokens.mergeSort precedes

/-- No token begins before the one in front of it. -/
def InOrder (tokens : List Token) : Prop :=
  tokens.Pairwise fun earlier later => earlier.position ≤ later.position

instance (tokens : List Token) : Decidable (InOrder tokens) :=
  inferInstanceAs (Decidable (tokens.Pairwise fun earlier later =>
    earlier.position ≤ later.position))

/-- A token covers the places of its line from its start up to its stop. -/
def covers (token : Token) (place : Position) : Bool :=
  token.line == place.line && token.start ≤ place.character && place.character < token.stop

theorem covers_iff {token : Token} {place : Position} :
    token.covers place = true ↔ token.line = place.line ∧
      token.start ≤ place.character ∧ place.character < token.stop := by
  simp only [covers, Bool.and_eq_true, beq_iff_eq, decide_eq_true_eq, and_assoc]

end Token

end SemanticHighlight
