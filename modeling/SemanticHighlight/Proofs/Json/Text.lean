import Mathlib.Data.Option.Basic
import SemanticHighlight.Json.Text

/-!
# Written string literals are read back

Every character is written as one piece, by itself or escaped, and no piece is half of a pair. So
the reader finds the pieces one by one, and puts them together to the same text. A literal that
spells no text is read back as such, too.
-/

set_option autoImplicit false

namespace SemanticHighlight.Json

section Pieces

variable {character : Char} (rest : List Char)

theorem readPieces?_short {mark : Char} (known : shortEscape? mark = some character) :
    readPieces? ('\\' :: mark :: rest) =
      (readPieces? rest).map fun read => (.plain character :: read.1, read.2) := by
  have notDigits : mark ≠ 'u' := by
    rintro rfl
    cases known
  rw [readPieces?, known, Option.map_eq_bind]
  · rfl
  · intro _ _ _ _ _ isDigits
    exact absurd isDigits notDigits

theorem readPieces?_digits {first second third fourth : Char} {unit : Nat}
    (known : Hex.number? [first, second, third, fourth] = some unit) :
    readPieces? ('\\' :: 'u' :: first :: second :: third :: fourth :: rest) =
      (readPieces? rest).map fun read => (.unit unit :: read.1, read.2) := by
  rw [readPieces?, known, Option.map_eq_bind]
  rfl

theorem readPieces?_plain (notQuote : character ≠ '"') (notBackslash : character ≠ '\\')
    (notControl : 32 ≤ character.toNat) :
    readPieces? (character :: rest) =
      (readPieces? rest).map fun read => (.plain character :: read.1, read.2) := by
  have admitted : (guard (32 ≤ character.toNat) : Option Unit) = some () := if_pos notControl
  rw [readPieces?, Option.map_eq_bind]
  · rw [admitted]
    rfl
  · simp [*]
  · simp [*]
  · simp [*]

end Pieces

/-- The piece that a character is written as: a control character without a short escape is given by
its digits. -/
def pieceOf (character : Char) : Piece :=
  if character.toNat < 32 ∧ character ∉ ['\x08', '\x0c', '\n', '\r', '\t'] then
    .unit character.toNat
  else
    .plain character

theorem number?_controlDigits : ∀ unit < 32,
    Hex.number? ['0', '0', Hex.digit (unit / 16), Hex.digit (unit % 16)] = some unit := by
  decide

theorem readPieces?_escape_append (character : Char) (rest : List Char) :
    readPieces? (escape character ++ rest) =
      (readPieces? rest).map fun read => (pieceOf character :: read.1, read.2) := by
  by_cases marked : character ∈ ['"', '\\', '\x08', '\x0c', '\n', '\r', '\t']
  · simp only [List.mem_cons, List.not_mem_nil, or_false] at marked
    rcases marked with rfl | rfl | rfl | rfl | rfl | rfl | rfl <;> exact readPieces?_short rest rfl
  simp only [List.mem_cons, List.not_mem_nil, or_false, not_or] at marked
  by_cases control : character.toNat < 32
  · have asUnit : pieceOf character = .unit character.toNat := by simp [pieceOf, *]
    have asDigits : escape character = '\\' :: 'u' :: ['0', '0',
        Hex.digit (character.toNat / 16), Hex.digit (character.toNat % 16)] := by
      simp [escape, *]
    rw [asUnit, asDigits]
    exact readPieces?_digits rest (number?_controlDigits _ control)
  · have asPlain : pieceOf character = .plain character := by simp [pieceOf, control]
    have asItself : escape character = [character] := by simp [escape, *]
    rw [asPlain, asItself]
    exact readPieces?_plain rest marked.1 marked.2.1 (Nat.le_of_not_lt control)

theorem readPieces?_escapes (chars rest : List Char) :
    readPieces? (chars.flatMap escape ++ '"' :: rest) = some (chars.map pieceOf, rest) := by
  induction chars with
  | nil => rfl
  | cons character chars ih =>
      rw [List.flatMap_cons, List.append_assoc, readPieces?_escape_append, ih]
      rfl

theorem assemble?_pieceOf_cons (character : Char) (pieces : List Piece) :
    assemble? (pieceOf character :: pieces) = (assemble? pieces).map (character :: ·) := by
  unfold pieceOf
  split
  next control =>
    have notHalf : isLeading character.toNat = false ∧ isTrailing character.toNat = false := by
      simp [isLeading, isTrailing]
      omega
    rcases pieces with _ | ⟨_ | _, _⟩ <;> simp [assemble?, notHalf, Char.ofNat_toNat]
  next => rfl

theorem assemble?_pieces (chars : List Char) : assemble? (chars.map pieceOf) = some chars := by
  induction chars with
  | nil => rfl
  | cons character chars ih => rw [List.map_cons, assemble?_pieceOf_cons, ih]; rfl

/-- What is written after the opening quote of a literal is read back, whatever follows it. -/
theorem exists_readText?_writeText (content : Content) :
    ∃ body, writeText content = '"' :: body ∧
      ∀ rest, readText? (body ++ rest) = some (content, rest) := by
  cases content with
  | none => exact ⟨_, rfl, fun rest => rfl⟩
  | some text =>
      refine ⟨text.toList.flatMap escape ++ ['"'], rfl, fun rest => ?_⟩
      simp [readText?, readPieces?_escapes, assemble?_pieces]

end SemanticHighlight.Json
