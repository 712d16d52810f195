import SemanticHighlight.Token

/-!
# Tokens cut to a span

A token that sticks out of a span at either end loses what sticks out, and is left out when
nothing remains.
-/

set_option autoImplicit false

namespace SemanticHighlight.Token

/-- The first column that `span` leaves of a token. -/
def clippedStart (span : Span) (token : Token) : UInt32 :=
  if token.line = span.start.line then max token.start span.start.character else token.start

/-- The column behind the last one that `span` leaves of a token. -/
def clippedStop (span : Span) (token : Token) : UInt32 :=
  if token.line = span.stop.line then min token.stop span.stop.character else token.stop

def clip? (span : Span) (token : Token) : Option Token :=
  if span.start.line ≤ token.line ∧ token.line ≤ span.stop.line ∧
      token.clippedStart span < token.clippedStop span then
    some { token with
      start := token.clippedStart span
      length := token.clippedStop span - token.clippedStart span }
  else
    none

def clip (span : Span) (tokens : List Token) : List Token :=
  tokens.filterMap (clip? span)

theorem clip_append (span : Span) (leading trailing : List Token) :
    clip span (leading ++ trailing) = clip span leading ++ clip span trailing :=
  List.filterMap_append ..

end SemanticHighlight.Token
