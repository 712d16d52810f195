import SemanticHighlight.Position

/-!
# What can go wrong with tokens

Each fault names its cause; the words for people are in `Fault.message`.
-/

set_option autoImplicit false

namespace SemanticHighlight

inductive Fault where
  /-- A token was asked for over a span that leaves its line or runs backwards. -/
  | invalidSpan (span : Span)
  /-- An array of this length does not consist of whole tokens. -/
  | malformedData (length : Nat)
  /-- The token with this index lies past the greatest line or character. -/
  | positionOverflow (index : Nat)
  /-- An edit reaches past the end of an array of this length. -/
  | editOutOfBounds (start deleteCount : UInt32) (length : Nat)
  /-- Requests for a part of a document are switched off. -/
  | rangeUnsupported
deriving DecidableEq

namespace Fault

private def describe (position : Position) : String :=
  "Position \x7b line: " ++ toString position.line.toNat ++ ", character: " ++
    toString position.character.toNat ++ " \x7d"

def message : Fault → String
  | .invalidSpan span =>
      "Invalid token range " ++ describe span.start ++ ".." ++ describe span.stop ++
        ": tokens must not span lines"
  | .malformedData length =>
      "Malformed token data: length " ++ toString length ++ " is not a multiple of 5"
  | .positionOverflow index => "Token " ++ toString index ++ " position overflows u32"
  | .editOutOfBounds start deleteCount length =>
      "Edit out of bounds: start " ++ toString start.toNat ++ " + delete " ++
        toString deleteCount.toNat ++ " exceeds length " ++ toString length
  | .rangeUnsupported => "Range requests are disabled"

theorem map_eq_ok_iff {α β : Type} {change : α → β} {outcome : Except Fault α} {result : β} :
    outcome.map change = .ok result ↔ ∃ value, outcome = .ok value ∧ change value = result := by
  cases outcome <;> simp [Except.map]

theorem map_eq_error_iff {α β : Type} {change : α → β} {outcome : Except Fault α}
    {fault : Fault} : outcome.map change = .error fault ↔ outcome = .error fault := by
  cases outcome <;> simp [Except.map]

end Fault

end SemanticHighlight
