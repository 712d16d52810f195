import SemanticHighlight.Proofs.Toml.Moment
import SemanticHighlight.Proofs.Toml.Number
import SemanticHighlight.Proofs.Toml.Text
import SemanticHighlight.Toml.Reader

/-!
# Keys and values that hold no others

Each is read from a part of the text, its spelling, which is read alike wherever it stands: a value
in front of any text that may follow values, and a part of a key in front of anything but more of
the same part. The first character tells keys, values and layout apart.
-/

set_option autoImplicit false

namespace SemanticHighlight.Toml

/-- What a steady reader has read is spelled by what it has passed. -/
theorem Steady.exists_spelling {α : Type} {read : List Char → Option (α × List Char)}
    (steady : Steady read) {chars rest : List Char} {item : α}
    (found : read chars = some (item, rest)) (ends : EndsValue rest) :
    ∃ spelling, chars = spelling ++ rest ∧ Spells EndsValue read item spelling := by
  obtain ⟨spelling, whole⟩ := steady.behind found
  change spelling ++ rest = chars at whole
  subst whole
  have apart := steady.append ends spelling
  rw [found] at apart
  obtain ⟨⟨other, left⟩, alone, same⟩ := Option.map_eq_some_iff.mp apart.symm
  simp only [extend, Prod.mk.injEq, List.append_left_eq_self] at same
  obtain ⟨rfl, rfl⟩ := same
  refine ⟨spelling, rfl, fun next nextEnds => ?_⟩
  rw [steady.append nextEnds, alone]
  rfl

/-! ## First characters -/

/-- The characters that dates, times and numbers begin with. -/
def opensPlain (character : Char) : Bool :=
  character.isDigit || character ∈ ['+', '-', 'i', 'n']

/-- The characters that values begin with, but for arrays and tables. -/
def opensScalar (character : Char) : Bool :=
  opensPlain character || character ∈ ['t', 'f', '"', '\x27']

def opensKey (character : Char) : Bool :=
  isBareKey character || character ∈ ['"', '\x27']

theorem isDigit_of_readFixed {count : Nat} {character : Char} {chars : List Char}
    {result : Nat × List Char}
    (found : readFixed? (count + 1) (character :: chars) = some result) :
    character.isDigit = true := by
  simp only [readFixed?] at found
  split at found
  · rename_i digits
    exact List.all_eq_true.mp digits.2 character (by simp)
  · cases found

theorem isDigit_of_readMoment {character : Char} {chars : List Char} {result : Value × List Char}
    (found : readMoment? (character :: chars) = some result) : character.isDigit = true := by
  unfold readMoment? at found
  split at found
  · rename_i dated
    unfold passDate? at dated
    simp only [Option.bind_eq_bind, Option.bind_eq_some_iff] at dated
    obtain ⟨_, year, _⟩ := dated
    exact isDigit_of_readFixed year
  · obtain ⟨_, timed, _⟩ := Option.map_eq_some_iff.mp found
    unfold passTime? passHourMinute? at timed
    simp only [Option.bind_eq_bind, Option.bind_eq_some_iff] at timed
    obtain ⟨_, ⟨_, hour, _⟩, _⟩ := timed
    exact isDigit_of_readFixed hour

theorem isDigit_of_readDecimal {negative : Bool} {character : Char} {chars : List Char}
    {result : Value × List Char}
    (found : readDecimal? negative (character :: chars) = some result) :
    character.isDigit = true := by
  unfold readDecimal? at found
  simp only [Option.bind_eq_bind, Option.bind_eq_some_iff] at found
  obtain ⟨_, whole, _⟩ := found
  unfold readWhole? at whole
  split at whole
  · rename_i same
    cases same
    decide
  · simp only [readDigits?] at whole
    split at whole
    · assumption
    · cases whole

theorem opensPlain_of_readNumber {character : Char} {chars : List Char} {result : Value × List Char}
    (found : readNumber? (character :: chars) = some result) : opensPlain character = true := by
  by_cases listed : character ∈ ['0', '+', '-', 'i', 'n']
  · simp only [List.mem_cons, List.not_mem_nil, or_false] at listed
    rcases listed with rfl | rfl | rfl | rfl | rfl <;> decide
  · simp only [List.mem_cons, List.not_mem_nil, or_false, not_or] at listed
    obtain ⟨noZero, noPlus, noMinus, noInf, noNan⟩ := listed
    have unsigned : readSign (character :: chars) = (false, character :: chars) := by
      simp [readSign, noPlus, noMinus]
    have decimal : readNumber? (character :: chars) = readDecimal? false (character :: chars) := by
      simp [readNumber?, unsigned, noZero, noInf, noNan]
    rw [decimal] at found
    simp [opensPlain, isDigit_of_readDecimal found]

/-! ## Values -/

/-- Reads a date, a time or a number. -/
def readPlain? (chars : List Char) : Option (Value × List Char) :=
  readMoment? chars <|> readNumber? chars

theorem steady_readPlain : Steady readPlain? :=
  steady_readMoment.orElse steady_readNumber

theorem opensPlain_of_readPlain {character : Char} {chars : List Char} {result : Value × List Char}
    (found : readPlain? (character :: chars) = some result) : opensPlain character = true := by
  unfold readPlain? at found
  cases dated : readMoment? (character :: chars) with
  | some moment => simp [opensPlain, isDigit_of_readMoment dated]
  | none =>
      rw [dated] at found
      exact opensPlain_of_readNumber found

/-- Neither words nor strings begin like dates, times or numbers. -/
theorem readScalar?_of_opensPlain {character : Char} (opens : opensPlain character = true)
    (chars : List Char) : readScalar? (character :: chars) = readPlain? (character :: chars) := by
  have others : character ∉ ['t', 'f', '"', '\x27'] := by
    intro member
    simp only [List.mem_cons, List.not_mem_nil, or_false] at member
    rcases member with rfl | rfl | rfl | rfl <;> exact absurd opens (by decide)
  simp only [List.mem_cons, List.not_mem_nil, or_false, not_or] at others
  obtain ⟨noTrue, noFalse, noBasic, noLiteral⟩ := others
  simp [readScalar?, readText?, readShortText?, readPlain?, noTrue, noFalse, noBasic, noLiteral]

theorem readScalar?_of_quote {quote : Char} (quoted : quote = '"' ∨ quote = '\x27')
    (chars : List Char) : readScalar? (quote :: chars) =
      (readText? (quote :: chars)).map fun (content, rest) => (.text (.ofList content), rest) := by
  have noPlain : readPlain? (quote :: chars) = none := by
    cases plain : readPlain? (quote :: chars) with
    | none => rfl
    | some result =>
        have opens := opensPlain_of_readPlain plain
        rcases quoted with rfl | rfl <;> exact absurd opens (by decide)
  have reads : readScalar? (quote :: chars) =
      ((readText? (quote :: chars)).map (fun (content, rest) =>
        (Value.text (.ofList content), rest)) <|> readPlain? (quote :: chars)) := by
    rcases quoted with rfl | rfl <;> rfl
  rw [reads, noPlain]
  cases readText? (quote :: chars) <;> rfl

theorem exists_scalar {chars rest : List Char} {value : Value}
    (found : readScalar? chars = some (value, rest)) (ends : EndsValue rest) :
    ∃ character spelling, opensScalar character = true ∧ chars = character :: (spelling ++ rest) ∧
      Spells EndsValue readScalar? value (character :: spelling) := by
  unfold readScalar? at found
  split at found
  · cases found
    exact ⟨'t', ['r', 'u', 'e'], by decide, rfl, fun other _ => rfl⟩
  · cases found
    exact ⟨'f', ['a', 'l', 's', 'e'], by decide, rfl, fun other _ => rfl⟩
  · cases read : readText? chars with
    | some result =>
        simp only [read] at found
        cases found
        obtain ⟨quote, spelling, quoted, rfl, spells⟩ := exists_text read
        refine ⟨quote, spelling, by rcases quoted with rfl | rfl <;> decide, rfl, ?_⟩
        intro other otherEnds
        have noQuote : other.head? ≠ some '"' ∧ other.head? ≠ some '\x27' := by
          cases other with
          | nil => exact ⟨nofun, nofun⟩
          | cons character other =>
              constructor <;> (rintro ⟨⟩; exact absurd otherEnds.head (by decide))
        have reads := spells other noQuote
        rw [List.cons_append] at reads ⊢
        rw [readScalar?_of_quote quoted, reads]
        rfl
    | none =>
        simp only [read] at found
        obtain ⟨spelling, rfl, spells⟩ := steady_readPlain.exists_spelling found ends
        cases spelling with
        | nil => cases spells [] endsValue_nil
        | cons character spelling =>
            have opens := opensPlain_of_readPlain found
            refine ⟨character, spelling, by simp [opensScalar, opens], rfl, ?_⟩
            intro other otherEnds
            rw [List.cons_append, readScalar?_of_opensPlain opens]
            exact spells other otherEnds

/-! ## Parts of keys -/

/-- Nothing comes behind, or something that is no more of a part of a key. -/
def EndsPart (rest : List Char) : Prop :=
  ∀ character, rest.head? = some character → isBareKey character = false

theorem readKeyPart?_quoted {quote : Char} (quoted : quote = '"' ∨ quote = '\x27')
    (chars : List Char) :
    readKeyPart? (quote :: chars) =
      (readShortText? (quote :: chars)).map fun (content, rest) => (.ofList content, rest) := by
  simp only [readKeyPart?, quoted, ↓reduceIte]

theorem readKeyPart?_bare {first : Char} (unquoted : ¬ (first = '"' ∨ first = '\x27'))
    (bare : isBareKey first = true) (chars : List Char) :
    readKeyPart? (first :: chars) = some (.ofList (first :: chars.takeWhile isBareKey),
      chars.dropWhile isBareKey) := by
  simp only [readKeyPart?, unquoted, bare, List.takeWhile_cons, List.dropWhile_cons, ↓reduceIte]

/-- What ends a part of a key ends a run of characters that may be in one. -/
theorem EndsPart.split {rest : List Char} (ends : EndsPart rest) {run : List Char}
    (bare : run.all isBareKey = true) :
    (run ++ rest).takeWhile isBareKey = run ∧ (run ++ rest).dropWhile isBareKey = rest := by
  have atEnd : rest.takeWhile isBareKey = [] ∧ rest.dropWhile isBareKey = rest := by
    cases rest with
    | nil => exact ⟨rfl, rfl⟩
    | cons character rest => simp [ends character rfl]
  have all := List.all_eq_true.mp bare
  constructor
  · rw [List.takeWhile_append_of_pos all, atEnd.1, List.append_nil]
  · rw [List.dropWhile_append_of_pos all, atEnd.2]

theorem exists_keyPart {chars rest : List Char} {name : String}
    (found : readKeyPart? chars = some (name, rest)) :
    ∃ character spelling, opensKey character = true ∧ chars = character :: (spelling ++ rest) ∧
      Spells EndsPart readKeyPart? name (character :: spelling) := by
  cases chars with
  | nil => cases found
  | cons first tail =>
      by_cases quoted : first = '"' ∨ first = '\x27'
      · rw [readKeyPart?_quoted quoted] at found
        obtain ⟨⟨content, behind⟩, read, made⟩ := Option.map_eq_some_iff.mp found
        cases made
        obtain ⟨quote, spelling, _, whole, spells⟩ := exists_shortText read
        cases whole
        refine ⟨first, spelling, by rcases quoted with rfl | rfl <;> decide, rfl, ?_⟩
        intro other _
        rw [List.cons_append, readKeyPart?_quoted quoted]
        exact congrArg _ (spells other trivial)
      · by_cases bare : isBareKey first = true
        · rw [readKeyPart?_bare quoted bare] at found
          cases found
          refine ⟨first, tail.takeWhile isBareKey, by simp [opensKey, bare],
            by rw [List.takeWhile_append_dropWhile], ?_⟩
          intro other ends
          have bareRun : (tail.takeWhile isBareKey).all isBareKey = true := List.all_takeWhile
          have run := ends.split bareRun
          rw [List.cons_append, readKeyPart?_bare quoted bare, run.1, run.2]
        · simp [readKeyPart?, quoted, bare] at found

end SemanticHighlight.Toml
