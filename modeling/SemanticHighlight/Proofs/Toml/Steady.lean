import Mathlib.Data.Option.Basic
import SemanticHighlight.Proofs.Toml.Layout

/-!
# Readers that stop where a value ends

Behind a value come blanks, a comment, the end of the line, or a sign that closes or goes on with
what the value stands in. A steady reader does not care which: with such a text behind, it reads
what it would read without. Steadiness is kept by the ways in which readers are put together, so it
is enough to look at the smallest of them.
-/

set_option autoImplicit false

namespace SemanticHighlight.Toml

/-! ## Texts behind a value -/

def closers : List Char :=
  ['#', '\n', '\r', ',', ']', '\x7d']

/-- Nothing comes behind the blanks, or a sign that no value has a part in. -/
def EndsValue (rest : List Char) : Prop :=
  ∀ character, (skipBlanks rest).head? = some character → character ∈ closers

/-- The characters that a text behind a value may begin with. -/
def valueEnds : List Char :=
  ' ' :: '\t' :: closers

theorem endsValue_nil : EndsValue [] := by
  intro character absent
  cases absent

theorem EndsValue.head {character : Char} {rest : List Char}
    (ends : EndsValue (character :: rest)) : character ∈ valueEnds := by
  by_cases blank : isBlank character = true
  · simp only [isBlank, Bool.or_eq_true, beq_iff_eq] at blank
    cases blank with
    | inl same | inr same => subst same; decide
  · have seen : skipBlanks (character :: rest) = character :: rest := by simp [skipBlanks, blank]
    have closes : character ∈ closers := ends character (by simp [seen])
    exact List.mem_cons_of_mem _ (List.mem_cons_of_mem _ closes)

/-- A test that fails for the characters behind a value fails for the first of them. -/
theorem EndsValue.untested {test : Char → Bool} (apart : valueEnds.any test = false)
    {character : Char} {rest : List Char} (ends : EndsValue (character :: rest)) :
    test character = false := by
  simpa using List.any_eq_false.mp apart character ends.head

theorem EndsValue.tail {character : Char} {rest : List Char} (blank : isBlank character = true)
    (ends : EndsValue (character :: rest)) : EndsValue rest := by
  have seen : skipBlanks (character :: rest) = skipBlanks rest := by simp [skipBlanks, blank]
  intro first found
  exact ends first (seen ▸ found)

/-- The text is read as the item up to its end, whatever follows that `ends` allows. -/
def Spells {α : Type} (ends : List Char → Prop) (read : List Char → Option (α × List Char))
    (item : α) (spelling : List Char) : Prop :=
  ∀ rest, ends rest → read (spelling ++ rest) = some (item, rest)

/-! ## Readers put together -/

/-- Reads on behind a first character that passes a test, and otherwise in another way. -/
def byFirst {Result : Type} (test : Char → Bool) (yes : Char → List Char → Option Result)
    (no : List Char → Option Result) : List Char → Option Result
  | [] => no []
  | character :: chars => if test character then yes character chars else no (character :: chars)

/-- Reads on behind a word, and otherwise in another way. -/
def byWord {Result : Type} (word : List Char) (yes no : List Char → Option Result)
    (chars : List Char) : Option Result :=
  if word <+: chars then yes (chars.drop word.length) else no chars

theorem byWord_of_other {Result : Type} {word : List Char} (yes no : List Char → Option Result)
    {chars : List Char} (other : ∀ rest, chars = word ++ rest → False) :
    byWord word yes no chars = no chars := by
  refine if_neg ?_
  intro begins
  obtain ⟨rest, whole⟩ := begins
  exact other rest whole.symm

/-! ## Steady readers -/

/-- What readers give back, a part of which is what is left of the text. -/
class Leaves (Result : Type) where
  left : Result → List Char
  /-- The same with more text behind what is left. -/
  extend : List Char → Result → Result

export Leaves (left extend)

instance : Leaves (List Char) where
  left := id
  extend rest chars := chars ++ rest

instance {α : Type} : Leaves (α × List Char) where
  left := Prod.snd
  extend rest read := (read.1, read.2 ++ rest)

structure Steady {Result : Type} [Leaves Result] (read : List Char → Option Result) : Prop where
  /-- What is left is the end of the text. -/
  behind : ∀ {chars : List Char} {result : Result}, read chars = some result →
    left result <:+ chars
  /-- A text behind a value makes no difference. -/
  append : ∀ {rest : List Char}, EndsValue rest → ∀ chars,
    read (chars ++ rest) = (read chars).map (extend rest)

namespace Steady

variable {α β Result : Type} [Leaves Result]

theorem give (item : α) : Steady fun chars => some (item, chars) where
  behind found := by
    cases found
    exact List.suffix_rfl
  append _ _ := rfl

theorem stay : Steady (some : List Char → Option (List Char)) where
  behind found := by
    cases found
    exact List.suffix_rfl
  append _ _ := rfl

theorem refuse : Steady fun _ => (none : Option Result) where
  behind found := by cases found
  append _ _ := rfl

theorem bind {read : List Char → Option (α × List Char)} {next : α → List Char → Option Result}
    (first : Steady read) (later : ∀ item, Steady (next item)) :
    Steady fun chars => (read chars).bind fun result => next result.1 result.2 where
  behind found := by
    obtain ⟨⟨item, middle⟩, seen, done⟩ := Option.bind_eq_some_iff.mp found
    exact ((later item).behind done).trans (first.behind seen)
  append ends chars := by
    rw [first.append ends]
    cases read chars with
    | none => rfl
    | some result => exact (later result.1).append ends result.2

theorem pass {passes : List Char → Option (List Char)} {next : List Char → Option Result}
    (first : Steady passes) (later : Steady next) :
    Steady fun chars => (passes chars).bind next where
  behind found := by
    obtain ⟨middle, seen, done⟩ := Option.bind_eq_some_iff.mp found
    exact (later.behind done).trans (first.behind seen)
  append ends chars := by
    rw [first.append ends]
    cases passes chars with
    | none => rfl
    | some middle => exact later.append ends middle

theorem guarded (condition : Prop) [Decidable condition] {read : List Char → Option Result}
    (steady : Steady read) :
    Steady fun chars => (guard condition : Option Unit).bind fun _ => read chars := by
  by_cases holds : condition
  · simpa [guard, holds] using steady
  · have refused : (guard condition : Option Unit) = none := if_neg holds
    simpa [refused] using refuse

theorem orElse {first second : List Char → Option Result} (firstSteady : Steady first)
    (secondSteady : Steady second) : Steady fun chars => first chars <|> second chars where
  behind {chars result} found := by
    cases seen : first chars with
    | none =>
        simp only [seen, Option.orElse_eq_orElse, Option.orElse_eq_or, Option.none_or] at found
        exact secondSteady.behind found
    | some other =>
        simp only [seen, Option.orElse_eq_orElse, Option.orElse_eq_or, Option.some_or] at found
        exact firstSteady.behind (seen.trans found)
  append ends chars := by
    rw [firstSteady.append ends, secondSteady.append ends]
    cases first chars <;> rfl

theorem byFirst {test : Char → Bool} {yes : Char → List Char → Option Result}
    {no : List Char → Option Result} (apart : valueEnds.any test = false)
    (onYes : ∀ character, Steady (yes character)) (onNo : Steady no) :
    Steady (byFirst test yes no) where
  behind {chars result} found := by
    cases chars with
    | nil => exact onNo.behind found
    | cons character chars =>
        simp only [Toml.byFirst] at found
        split at found
        · exact ((onYes character).behind found).trans (List.suffix_cons ..)
        · exact onNo.behind found
  append {rest} ends chars := by
    cases chars with
    | nil =>
        have plain := onNo.append ends []
        cases rest with
        | nil => exact plain
        | cons character rest =>
            have untested := ends.untested apart
            simpa [Toml.byFirst, untested] using plain
    | cons character chars =>
        simp only [Toml.byFirst, List.cons_append]
        split
        · exact (onYes character).append ends chars
        · exact onNo.append ends (character :: chars)

theorem byWord {word : List Char} {yes no : List Char → Option Result}
    (apart : word.any valueEnds.contains = false) (onYes : Steady yes) (onNo : Steady no) :
    Steady (byWord word yes no) where
  behind {chars result} found := by
    simp only [Toml.byWord] at found
    split at found
    · exact (onYes.behind found).trans (List.drop_suffix ..)
    · exact onNo.behind found
  append {rest} ends chars := by
    have same : word <+: chars ++ rest ↔ word <+: chars := by
      constructor
      · intro begins
        cases List.prefix_or_prefix_of_prefix begins (List.prefix_append chars rest) with
        | inl within => exact within
        | inr beyond =>
            -- A part of the word beyond `chars` would begin with a character that ends values.
            obtain ⟨later, rfl⟩ := beyond
            cases later with
            | nil => simp
            | cons character later =>
                obtain ⟨_, rfl⟩ := (List.prefix_append_right_inj chars).mp begins
                have ending := List.contains_iff_mem.mpr ends.head
                have never := List.any_eq_false.mp apart character (by simp)
                exact absurd ending never
      · exact fun begins => begins.trans (List.prefix_append ..)
    simp only [Toml.byWord, same]
    split
    · rename_i begins
      rw [List.drop_append_of_le_length begins.length_le]
      exact onYes.append ends _
    · exact onNo.append ends chars

end Steady

end SemanticHighlight.Toml
