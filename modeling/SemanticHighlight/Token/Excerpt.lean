import SemanticHighlight.Token.Relative

/-!
# The part of a word array inside a span

The array is cut while it is read, and stays in relative form throughout. The scan passes over
lines in front of the span, stops at the first token behind it, and counts each token it keeps
from the one it kept before.

The scan leaves open how words are added and subtracted. `excerpt` lets sums wrap round, and
`checkedExcerpt?` refuses to give an answer once one of them does.
-/

set_option autoImplicit false

namespace SemanticHighlight.Token

/-- The first column inside `span` of a token that begins at `place`. -/
def cutStart (span : Span) (place : Position) : UInt32 :=
  if place.line = span.start.line then max place.character span.start.character
  else place.character

/-- The column behind the last one inside `span` of a token that begins at `place`. -/
def cutStop (span : Span) (place : Position) (length : UInt32) : UInt32 :=
  let whole := Word.saturatedSum place.character length
  if place.line = span.stop.line then min whole span.stop.character else whole

section Scan

variable {m : Type → Type} [Monad m]

/-- The position a relative step leads to, with the given addition. -/
def stepWith (add : UInt32 → UInt32 → m UInt32) (here : Position) (deltaLine deltaStart : UInt32) :
    m Position :=
  if deltaLine = 0 then do
    let character ← add here.character deltaStart
    pure ⟨here.line, character⟩
  else do
    let line ← add here.line deltaLine
    pure ⟨line, deltaStart⟩

/-- The relative step from the token kept before to `place`; the first one counts from the
text's beginning. -/
def rebaseWith (sub : UInt32 → UInt32 → m UInt32) (kept? : Option Position) (place : Position) :
    m (UInt32 × UInt32) :=
  match kept? with
  | none => pure (place.line, place.character)
  | some kept =>
      if kept.line < place.line then do
        let deltaLine ← sub place.line kept.line
        pure (deltaLine, place.character)
      else do
        let deltaStart ← sub place.character kept.character
        pure (0, deltaStart)

/-- Scans the words that follow `here` for tokens inside `span`. A token in front of the span is passed
over before it is asked whether it lies behind. Words behind the last whole token are passed over. -/
def scanWith (add sub : UInt32 → UInt32 → m UInt32) (span : Span) (here : Position)
    (kept? : Option Position) : List UInt32 → m (List UInt32)
  | deltaLine :: deltaStart :: length :: typeId :: modifiers :: rest => do
      let place ← stepWith add here deltaLine deltaStart
      if place.line < span.start.line then
        scanWith add sub span place kept? rest
      else if span.stop ≤ place then
        pure []
      else
        let first := cutStart span place
        let last := cutStop span place length
        if last ≤ first then
          scanWith add sub span place kept? rest
        else do
          let clipped : Position := ⟨place.line, first⟩
          let delta ← rebaseWith sub kept? clipped
          let clippedLength ← sub last first
          let later ← scanWith add sub span place (some clipped) rest
          pure (delta.1 :: delta.2 :: clippedLength :: typeId :: modifiers :: later)
  | _ => pure []

end Scan

/-- The words of the tokens inside `span`, as an array of its own. -/
def excerpt (span : Span) (data : List UInt32) : List UInt32 :=
  Id.run (scanWith (fun left right => pure (left + right)) (fun left right => pure (left - right))
    span .origin none data)

/-- The words of the tokens inside `span`: `none` when a sum or a difference on the way to them is
no word. -/
def checkedExcerpt? (span : Span) (data : List UInt32) : Option (List UInt32) :=
  scanWith Word.sum? Word.difference? span .origin none data

/-- With checked sums, a step of the scan is a step of the decoder. -/
theorem stepWith_sum? (here : Position) (deltaLine deltaStart : UInt32) :
    stepWith Word.sum? here deltaLine deltaStart = here.after? deltaLine deltaStart := by
  unfold stepWith Position.after?
  split
  · cases Word.sum? here.character deltaStart <;> rfl
  · cases Word.sum? here.line deltaLine <;> rfl

end SemanticHighlight.Token
