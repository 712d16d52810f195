import SemanticHighlight.Legend
import SemanticHighlight.Token.Relative

/-!
# Drafts

A tokenizer hands over its tokens one push at a time. A draft keeps what was pushed so far in
relative form, so that it needs to remember only where the last token began. A push that names its
type and modifiers has them looked up in a legend.
-/

set_option autoImplicit false

namespace SemanticHighlight

/-- One thing a tokenizer does. -/
inductive Push where
  | token (token : Token)
  | typed (line start length : UInt32) (tokenType : Option TokenType) (modifiers : List Modifier)
  | named (line start length : UInt32) (typeName : String) (modifiers : List String)
  | typedSpan (span : Span) (tokenType : Option TokenType) (modifiers : List Modifier)
  | encodedSpan (span : Span) (typeId modifiers : UInt32)
  /-- Gives up with a fault of its own. -/
  | fail (fault : Fault)
deriving DecidableEq

def spanLength (span : Span) : Except Fault UInt32 :=
  match span.length? with
  | some length => .ok length
  | none => .error (.invalidSpan span)

/-- The token that a push hands over, its names looked up in the legend. -/
def Push.resolve (legend : Legend) : Push → Except Fault Token
  | .token given => .ok given
  | .typed line start length tokenType modifiers =>
      .ok ⟨line, start, length, legend.optionalTypeId tokenType,
        legend.modifierMask (modifiers.map Modifier.name)⟩
  | .named line start length typeName modifiers =>
      .ok ⟨line, start, length, legend.typeId typeName, legend.modifierMask modifiers⟩
  | .typedSpan span tokenType modifiers =>
      (spanLength span).map fun length =>
        ⟨span.start.line, span.start.character, length, legend.optionalTypeId tokenType,
          legend.modifierMask (modifiers.map Modifier.name)⟩
  | .encodedSpan span typeId modifiers =>
      (spanLength span).map fun length =>
        ⟨span.start.line, span.start.character, length, typeId, modifiers⟩
  | .fail cause => .error cause

/-- The tokens pushed so far, and where the last of them began. -/
structure Draft where
  data : Array UInt32
  last : Position
deriving DecidableEq

namespace Draft

def empty : Draft := ⟨#[], .origin⟩

def tokenCount (draft : Draft) : Nat :=
  draft.data.size / wordsPerToken

/-- Adds a token. The first one is written with its own line and start, any later one by the step
from the token in front; a step backwards wraps round. -/
def add (draft : Draft) (token : Token) : Draft :=
  let delta : UInt32 × UInt32 :=
    if draft.data.isEmpty then
      (token.line, token.start)
    else
      let deltaLine := token.line - draft.last.line
      (deltaLine, if deltaLine = 0 then token.start - draft.last.character else token.start)
  { data := draft.data ++ #[delta.1, delta.2, token.length, token.typeId, token.modifiers]
    last := token.position }

def push (legend : Legend) (draft : Draft) (item : Push) : Except Fault Draft :=
  (item.resolve legend).map draft.add

/-- Does one push after the other. A fault leaves the draft as it was, and the next push goes on.
Beside the draft stands, for each push, how many tokens there were behind it, or its fault. -/
def pushEach (legend : Legend) (draft : Draft) : List Push → List (Except Fault Nat) × Draft
  | [] => ([], draft)
  | item :: items =>
      match draft.push legend item with
      | .error fault =>
          let later := pushEach legend draft items
          (.error fault :: later.1, later.2)
      | .ok grown =>
          let later := pushEach legend grown items
          (.ok grown.tokenCount :: later.1, later.2)

structure Outcome where
  /-- How many tokens there were behind each push that worked. -/
  trace : List Nat
  result : Except Fault Draft

/-- Does one push after the other up to the first fault. -/
def pushAll (legend : Legend) (draft : Draft) : List Push → Outcome
  | [] => ⟨[], .ok draft⟩
  | item :: items =>
      match draft.push legend item with
      | .error fault => ⟨[], .error fault⟩
      | .ok grown =>
          let later := pushAll legend grown items
          ⟨grown.tokenCount :: later.trace, later.result⟩

end Draft

end SemanticHighlight
