import SemanticHighlight.Fault
import SemanticHighlight.Token

/-!
# Token lists as arrays of words

A token is written as five words: the lines and characters since the token in front, the length,
the type and the modifiers. On a new line the character counts from the line's beginning, and the
first token counts from the text's beginning.

`decode` accepts arrays of whole tokens whose positions stay within 32 bits. `encode` writes any
list; a step backwards wraps round, which `decode` then refuses.
-/

set_option autoImplicit false

namespace SemanticHighlight

def wordsPerToken : Nat := 5

def tokenCount (data : List UInt32) : Nat :=
  data.length / wordsPerToken

def checkWholeTokens (data : List UInt32) : Except Fault Unit :=
  if data.length % wordsPerToken = 0 then .ok () else .error (.malformedData data.length)

theorem checkWholeTokens_eq_ok_iff {data : List UInt32} :
    checkWholeTokens data = .ok () ↔ data.length % wordsPerToken = 0 := by
  unfold checkWholeTokens
  split <;> simp_all

namespace Position

/-- The position a relative step leads to: `none` when it leaves the 32-bit words. -/
def after? (here : Position) (deltaLine deltaStart : UInt32) : Option Position :=
  if deltaLine = 0 then
    (Word.sum? here.character deltaStart).map fun character => ⟨here.line, character⟩
  else
    (Word.sum? here.line deltaLine).map fun line => ⟨line, deltaStart⟩

theorem after?_zero (here : Position) (deltaStart : UInt32) :
    here.after? 0 deltaStart =
      (Word.sum? here.character deltaStart).map fun character => ⟨here.line, character⟩ :=
  rfl

theorem after?_of_ne_zero (here : Position) {deltaLine : UInt32} (deltaStart : UInt32)
    (moved : deltaLine ≠ 0) :
    here.after? deltaLine deltaStart =
      (Word.sum? here.line deltaLine).map fun line => ⟨line, deltaStart⟩ :=
  if_neg moved

end Position

namespace Token

/-- Reads tokens that follow `here`, the first of them having the given index. Words behind the
last whole token are passed over. -/
def decodeFrom (here : Position) (index : Nat) : List UInt32 → Except Fault (List Token)
  | deltaLine :: deltaStart :: length :: typeId :: modifiers :: rest =>
      match here.after? deltaLine deltaStart with
      | none => .error (.positionOverflow index)
      | some place =>
          match decodeFrom place (index + 1) rest with
          | .error fault => .error fault
          | .ok tokens =>
              .ok (⟨place.line, place.character, length, typeId, modifiers⟩ :: tokens)
  | _ => .ok []

/-- Reads an array of words as tokens. The length is checked before any token is read. -/
def decode (data : List UInt32) : Except Fault (List Token) := do
  checkWholeTokens data
  decodeFrom .origin 0 data

def wordsAfter (previous : Position) (token : Token) : List UInt32 :=
  let deltaLine := token.line - previous.line
  let deltaStart := if deltaLine = 0 then token.start - previous.character else token.start
  [deltaLine, deltaStart, token.length, token.typeId, token.modifiers]

def encodeFrom (previous : Position) : List Token → List UInt32
  | [] => []
  | token :: tokens => token.wordsAfter previous ++ encodeFrom token.position tokens

def encode (tokens : List Token) : List UInt32 :=
  encodeFrom .origin tokens

@[simp] theorem encodeFrom_nil (previous : Position) : encodeFrom previous [] = [] := rfl

@[simp] theorem encodeFrom_cons (previous : Position) (token : Token) (tokens : List Token) :
    encodeFrom previous (token :: tokens) =
      token.wordsAfter previous ++ encodeFrom token.position tokens := rfl

@[simp] theorem length_wordsAfter (previous : Position) (token : Token) :
    (token.wordsAfter previous).length = wordsPerToken := rfl

theorem length_encodeFrom (previous : Position) (tokens : List Token) :
    (encodeFrom previous tokens).length = wordsPerToken * tokens.length := by
  induction tokens generalizing previous with
  | nil => rfl
  | cons token tokens inductionHypothesis =>
      rw [encodeFrom_cons, List.length_append, length_wordsAfter, inductionHypothesis,
        List.length_cons, Nat.mul_succ, Nat.add_comm]

theorem encodeFrom_append (previous : Position) (leading trailing : List Token) :
    encodeFrom previous (leading ++ trailing) =
      encodeFrom previous leading ++
        encodeFrom ((leading.getLast?.map position).getD previous) trailing := by
  induction leading generalizing previous with
  | nil => rfl
  | cons token leading inductionHypothesis =>
      rw [List.cons_append, encodeFrom_cons, encodeFrom_cons, inductionHypothesis,
        List.append_assoc]
      cases leading with
      | nil => rfl
      | cons next leading => simp [List.getLast?_cons]

end Token

end SemanticHighlight
