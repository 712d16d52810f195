import SemanticHighlight.Proofs.Toml.Grammar

/-!
# How a text is read

A text is read as some statements if and only if it is laid out from them, so a layout that differs
makes no other table.
-/

set_option autoImplicit false

namespace SemanticHighlight.Toml

theorem exists_header {closing chars rest : List Char} {path : List String}
    (found : readHeader? closing chars = some (path, rest)) :
    ∃ key ending, lexicon.Key depthLimit path key ∧ LineEnd rest ending ∧
      chars = key ++ (closing ++ (ending ++ rest)) := by
  simp only [readHeader?, Option.bind_eq_bind, Option.bind_eq_some_iff] at found
  obtain ⟨⟨_, behind⟩, keyed, _, closed, _, passed, made⟩ := found
  cases made
  obtain ⟨key, named, rfl⟩ := exists_key keyed
  obtain ⟨ending, ended, whole⟩ := passLineEnd?_eq_some_iff.mp passed
  have begins : closing <+: behind := by
    simpa [guard] using closed
  obtain ⟨later, rfl⟩ := begins
  rw [List.drop_left] at whole
  exact ⟨key, ending, named, ended, by rw [whole]⟩

theorem readHeader?_append {closing key ending rest : List Char} {path : List String}
    (named : lexicon.Key depthLimit path key) (bracket : ∃ tail, closing = ']' :: tail)
    (ended : LineEnd rest ending) :
    readHeader? closing (key ++ (closing ++ (ending ++ rest))) = some (path, rest) := by
  obtain ⟨tail, rfl⟩ := bracket
  have keyed : readKey? depthLimit (key ++ (']' :: tail ++ (ending ++ rest))) =
      some (path, ']' :: tail ++ (ending ++ rest)) := named.read ⟨_, .inr rfl⟩
  have closed : (']' :: tail).isPrefixOf (']' :: tail ++ (ending ++ rest)) = true :=
    List.isPrefixOf_iff_prefix.mpr (List.prefix_append ..)
  have passed : passLineEnd? (ending ++ rest) = some rest :=
    passLineEnd?_eq_some_iff.mpr ⟨ending, ended, rfl⟩
  simp only [readHeader?, keyed, closed, guard, List.drop_left, passed, Option.bind_eq_bind,
    Option.bind_some, ↓reduceIte]
  rfl

theorem readStatements?_skipBlanks (fuel : Nat) (chars : List Char) :
    readStatements? fuel (skipBlanks chars) = readStatements? fuel chars := by
  cases fuel with
  | zero => rfl
  | succ fuel => simp only [readStatements?, skipBlanks_skipBlanks]

theorem passLineEnd?_skipBlanks (chars : List Char) :
    passLineEnd? (skipBlanks chars) = passLineEnd? chars := by
  simp only [passLineEnd?, skipBlanks_skipBlanks]

theorem passLineEnd?_eq_none {character : Char} (starts : Starts character) (tail : List Char) :
    passLineEnd? (character :: tail) = none := by
  have seen : skipComment (skipBlanks (character :: tail)) = character :: tail := by
    have apart : character ≠ '#' := fun same => starts.apart (by simp [same])
    simp [skipBlanks, skipComment, starts.visible, apart]
  have noBreak : ∀ control ∈ ['\n', '\r'], character ≠ control := by
    intro control listed same
    have none : ['\n', '\r'].any isPrintable = false := by decide
    have printable := starts.printable
    rw [same] at printable
    exact List.any_eq_false.mp none control listed printable
  simp [passLineEnd?, seen, passNewline?, noBreak]

theorem Lexicon.Key.ne_bracket {parts : Nat} {path : List String} {key : List Char}
    (named : lexicon.Key parts path key) (rest tail : List Char) : key ++ rest ≠ '[' :: tail := by
  intro same
  obtain ⟨character, others, starts, opens⟩ := named.starts rest
  have bracket : skipBlanks ('[' :: tail) = '[' :: tail := rfl
  rw [same, bracket] at starts
  cases starts
  exact absurd opens (by decide)

theorem LineEnd.ne_nil {rest ending : List Char} (ended : LineEnd rest ending)
    (visible : skipBlanks (ending ++ rest) ≠ []) : ending ≠ [] := by
  cases ended with
  | broken _ _ ended =>
      obtain ⟨character, tail, rfl, _⟩ := ended.head
      simp
  | last _ _ atEnd =>
      subst atEnd
      intro nothing
      exact visible (by rw [nothing]; rfl)

/-- A line without a statement is passed. -/
theorem readStatements?_empty {chars rest : List Char} (passed : passLineEnd? chars = some rest)
    (visible : skipBlanks chars ≠ []) (fuel : Nat) :
    readStatements? (fuel + 1) chars = readStatements? fuel rest := by
  rw [← passLineEnd?_skipBlanks] at passed
  rw [readStatements?]
  split
  · rename_i atEnd
    exact absurd atEnd visible
  · rename_i bracket
    rw [bracket] at passed
    cases passed
  · rename_i bracket
    rw [bracket] at passed
    cases passed
  · simp only [passed]

theorem readStatements?_assign {path : List String} {value : Value}
    {assignee text ending rest : List Char} (assigns : lexicon.Assignee path assignee)
    (written : lexicon.Written depthLimit (.value value) text) (ended : LineEnd rest ending)
    {fuel : Nat} (enough : text.length < fuel) :
    readStatements? (fuel + 1) (assignee ++ (text ++ (ending ++ rest))) =
      (readStatements? fuel rest).map (.assign path value :: ·) := by
  obtain ⟨character, tail, starts, opens⟩ := assigns.starts (text ++ (ending ++ rest))
  have begins := Starts.of_opensKey opens
  have noBracket : character ≠ '[' := fun same => begins.apart (by simp [same])
  have assigned := assigns.read (written.visible (ending ++ rest))
  rw [← readAssignee?_skipBlanks, starts] at assigned
  have read := written.reads fuel (ending ++ rest) enough ended.endsValue
  have passed : passLineEnd? (ending ++ rest) = some rest :=
    passLineEnd?_eq_some_iff.mpr ⟨ending, ended, rfl⟩
  rw [readStatements?, starts]
  split
  · rename_i absent
    cases absent
  · rename_i bracket
    exact absurd (List.cons.inj bracket).1 noBracket
  · rename_i bracket
    exact absurd (List.cons.inj bracket).1 noBracket
  · simp only [passLineEnd?_eq_none begins, assigned, read, passed, Option.bind_eq_bind,
      Option.bind_some]
    cases readStatements? fuel rest <;> rfl

theorem readStatements?_table {path : List String} {key ending rest : List Char}
    (named : lexicon.Key depthLimit path key) (ended : LineEnd rest ending) (fuel : Nat) :
    readStatements? (fuel + 1) ('[' :: (key ++ (']' :: (ending ++ rest)))) =
      (readStatements? fuel rest).map (.table path :: ·) := by
  have header : readHeader? [']'] (key ++ (']' :: (ending ++ rest))) = some (path, rest) :=
    readHeader?_append named ⟨[], rfl⟩ ended
  have bracket : skipBlanks ('[' :: (key ++ (']' :: (ending ++ rest)))) =
      '[' :: (key ++ (']' :: (ending ++ rest))) := rfl
  rw [readStatements?, bracket]
  split
  · rename_i absent
    cases absent
  · -- a key does not begin with a bracket, so this is no header of an element
    rename_i double
    exact absurd (List.cons.inj double).2 (named.ne_bracket _ _)
  · rename_i single
    cases single
    simp only [header, Option.bind_eq_bind, Option.bind_some]
    cases readStatements? fuel rest <;> rfl
  · rename_i other
    exact absurd rfl (other _)

theorem readStatements?_element {path : List String} {key ending rest : List Char}
    (named : lexicon.Key depthLimit path key) (ended : LineEnd rest ending) (fuel : Nat) :
    readStatements? (fuel + 1) ('[' :: '[' :: (key ++ (']' :: ']' :: (ending ++ rest)))) =
      (readStatements? fuel rest).map (.element path :: ·) := by
  have header : readHeader? [']', ']'] (key ++ (']' :: ']' :: (ending ++ rest))) =
      some (path, rest) :=
    readHeader?_append named ⟨[']'], rfl⟩ ended
  have bracket : skipBlanks ('[' :: '[' :: (key ++ (']' :: ']' :: (ending ++ rest)))) =
      '[' :: '[' :: (key ++ (']' :: ']' :: (ending ++ rest))) := rfl
  simp only [readStatements?, bracket, header, Option.bind_eq_bind, Option.bind_some]
  cases readStatements? fuel rest <;> rfl

theorem Lexicon.StatementText.read {statement : Statement} {text ending rest : List Char}
    (stated : lexicon.StatementText statement text) (ended : LineEnd rest ending) {fuel : Nat}
    (enough : text.length ≤ fuel) :
    readStatements? (fuel + 1) (text ++ (ending ++ rest)) =
      (readStatements? fuel rest).map (statement :: ·) := by
  cases stated with
  | @assign path value assignee text assigns written =>
      have shorter : text.length < fuel := by
        have := List.length_pos_iff.mpr assigns.ne_nil
        simp only [List.length_append] at enough
        omega
      rw [List.append_assoc]
      exact readStatements?_assign assigns written ended shorter
  | table named => simpa using readStatements?_table named ended fuel
  | element named => simpa using readStatements?_element named ended fuel

theorem Lexicon.StatementText.ne_nil {statement : Statement} {text : List Char}
    (stated : lexicon.StatementText statement text) : text ≠ [] := by
  cases stated with
  | assign assigns => simp [assigns.ne_nil]
  | table | element => nofun

theorem Lexicon.Lines.read {statements : List Statement} {chars : List Char}
    (lines : lexicon.Lines statements chars) {fuel : Nat} (enough : chars.length < fuel) :
    readStatements? fuel chars = some statements := by
  induction lines generalizing fuel with
  | nil =>
      obtain ⟨fuel, rfl⟩ := Nat.exists_eq_add_one.mpr (Nat.zero_lt_of_lt enough)
      rfl
  | @empty statements ending rest ended later ih =>
      obtain ⟨fuel, rfl⟩ := Nat.exists_eq_add_one.mpr (Nat.zero_lt_of_lt enough)
      have passed : passLineEnd? (ending ++ rest) = some rest :=
        passLineEnd?_eq_some_iff.mpr ⟨ending, ended, rfl⟩
      by_cases visible : skipBlanks (ending ++ rest) = []
      · simp only [passLineEnd?, visible, skipComment, Option.some.injEq] at passed
        subst passed
        rw [← readStatements?_skipBlanks, visible]
        exact ih (by simp)
      · rw [readStatements?_empty passed visible]
        refine ih ?_
        simp only [List.length_append] at enough
        have := List.length_pos_iff.mpr (ended.ne_nil visible)
        omega
  | @line statement statements blanks text ending rest blank stated ended later ih =>
      obtain ⟨fuel, rfl⟩ := Nat.exists_eq_add_one.mpr (Nat.zero_lt_of_lt enough)
      simp only [List.length_append] at enough
      have nonempty := List.length_pos_iff.mpr stated.ne_nil
      rw [← readStatements?_skipBlanks, skipBlanks_append blank, readStatements?_skipBlanks,
        stated.read ended (by omega), ih (by omega)]
      rfl

/-- A line with a header, and those behind it. -/
theorem exists_headerLine (opening closing : List Char) {blanks chars : List Char} {fuel : Nat}
    {make : List String → Statement} {statements : List Statement}
    (stated : ∀ {path key}, lexicon.Key depthLimit path key →
      lexicon.StatementText (make path) (opening ++ (key ++ closing)))
    (shorter : ∀ {rest later}, readStatements? fuel rest = some later → lexicon.Lines later rest)
    (blank : Blanks blanks)
    (found : (readHeader? closing chars).bind (fun (path, rest) =>
      (readStatements? fuel rest).bind fun later => some (make path :: later)) = some statements) :
    lexicon.Lines statements (blanks ++ (opening ++ chars)) := by
  obtain ⟨⟨path, rest⟩, header, others⟩ := Option.bind_eq_some_iff.mp found
  obtain ⟨later, read, made⟩ := Option.bind_eq_some_iff.mp others
  cases made
  obtain ⟨key, ending, named, ended, rfl⟩ := exists_header header
  simpa using Lexicon.Lines.line blank (stated named) ended (shorter read)

theorem exists_lines {fuel : Nat} {chars : List Char} {statements : List Statement}
    (found : readStatements? fuel chars = some statements) : lexicon.Lines statements chars := by
  induction fuel generalizing chars statements with
  | zero => cases found
  | succ fuel ih =>
      obtain ⟨blanks, blank, whole⟩ := exists_blanks chars
      rw [readStatements?] at found
      split at found
      · rename_i atEnd
        cases found
        rw [atEnd] at whole
        rw [whole]
        have ended : LineEnd [] (blanks ++ []) := .last blank .none rfl
        have lines : lexicon.Lines [] (blanks ++ [] ++ []) := .empty ended .nil
        rwa [List.append_nil] at lines
      · rename_i opened
        rw [whole, opened]
        exact exists_headerLine ['[', '['] [']', ']'] .element ih blank found
      · rename_i opened
        rw [whole, opened]
        exact exists_headerLine ['['] [']'] .table ih blank found
      · split at found
        · rename_i passed
          rw [passLineEnd?_skipBlanks] at passed
          obtain ⟨ending, ended, rfl⟩ := passLineEnd?_eq_some_iff.mp passed
          exact .empty ended (ih found)
        · simp only [Option.bind_eq_bind, Option.bind_eq_some_iff] at found
          obtain ⟨⟨path, _⟩, assigned, ⟨value, _⟩, read, rest, passed, later, others, made⟩ := found
          cases made
          obtain ⟨ending, ended, rfl⟩ := passLineEnd?_eq_some_iff.mp passed
          obtain ⟨assignee, assigns, shape⟩ := exists_assignee assigned
          obtain ⟨text, written, rfl⟩ := (sound fuel).value read ended.endsValue
          rw [shape] at whole
          have lines := Lexicon.Lines.line blank (.assign assigns written) ended (ih others)
          simpa [whole] using lines

/-- A text is read as the statements that it is laid out from, and as none if there are no such. -/
theorem parse?_eq_some_iff {text : String} {root : Entries} :
    parse? text = some root ↔
      ∃ statements, lexicon.LaidOut statements text ∧ build? [] [] statements = some root := by
  simp only [parse?, Option.bind_eq_bind, Option.bind_eq_some_iff]
  constructor
  · intro read
    obtain ⟨statements, read, built⟩ := read
    exact ⟨statements, exists_lines read, built⟩
  · intro shape
    obtain ⟨statements, laidOut, built⟩ := shape
    exact ⟨statements, laidOut.read (Nat.lt_succ_self _), built⟩

theorem Lexicon.LaidOut.parse? {statements : List Statement} {text : String}
    (laidOut : lexicon.LaidOut statements text) : parse? text = build? [] [] statements := by
  simp only [Toml.parse?, Option.bind_eq_bind, laidOut.read (Nat.lt_succ_self _), Option.bind_some]

end SemanticHighlight.Toml
