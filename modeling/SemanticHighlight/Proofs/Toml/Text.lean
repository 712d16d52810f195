import SemanticHighlight.Proofs.Toml.Steady
import SemanticHighlight.Toml.Text

/-!
# Strings and the text behind them

A string ends in quotes of its own, so what stands behind it has no part in how it is read, but for
further quotes behind a long one. For each kind of string, the part of the text that was read is
shown to be read alike with any other text behind it.
-/

set_option autoImplicit false

namespace SemanticHighlight.Toml

theorem step_eq_some {α β : Type} {first : Option α} {make : α → β}
    {later : Option (List β × List Char)} {content : List β} {rest : List Char}
    (found : (do
      let item ← first
      let (items, rest) ← later
      return (make item :: items, rest)) = some (content, rest)) :
    ∃ item items, first = some item ∧ later = some (items, rest) ∧
      content = make item :: items := by
  simp only [Option.bind_eq_bind, Option.bind_eq_some_iff] at found
  obtain ⟨item, isFirst, ⟨items, behind⟩, isLater, made⟩ := found
  cases made
  exact ⟨item, items, isFirst, isLater, rfl⟩

/-- The step of a character that stands for itself. -/
theorem plain_step_eq_some {α : Type} {item : α} {character : Char}
    {later : Option (List α × List Char)} {content : List α} {rest : List Char}
    (found : (do
      guard (isPrintable character = true)
      let (items, rest) ← later
      return (item :: items, rest)) = some (content, rest)) :
    ∃ items, isPrintable character = true ∧ later = some (items, rest) ∧
      content = item :: items := by
  obtain ⟨_, items, guarded, isLater, made⟩ := step_eq_some found
  refine ⟨items, ?_, isLater, made⟩
  cases shown : isPrintable character with
  | true => rfl
  | false => simp [guard, shown] at guarded

/-! ## Strings on one line -/

theorem exists_basic {chars content rest : List Char}
    (found : readBasic? chars = some (content, rest)) :
    ∃ spelling, chars = spelling ++ rest ∧ Spells (fun _ => True) readBasic? content spelling := by
  fun_induction readBasic? chars generalizing content with
  | case1 => cases found
  | case2 =>
      cases found
      exact ⟨['"'], rfl, fun other _ => by simp [readBasic?]⟩
  | case3 d1 d2 d3 d4 chars ih =>
      obtain ⟨character, content, coded, read, rfl⟩ := step_eq_some found
      obtain ⟨spelling, rfl, spells⟩ := ih read
      exact ⟨_ :: _ :: _ :: _ :: _ :: _ :: spelling, rfl, fun other _ => by
        simp [readBasic?, coded, spells other trivial]⟩
  | case4 d1 d2 d3 d4 d5 d6 d7 d8 chars ih =>
      obtain ⟨character, content, coded, read, rfl⟩ := step_eq_some found
      obtain ⟨spelling, rfl, spells⟩ := ih read
      exact ⟨_ :: _ :: _ :: _ :: _ :: _ :: _ :: _ :: _ :: _ :: spelling, rfl, fun other _ => by
        simp [readBasic?, coded, spells other trivial]⟩
  | case5 escape chars _ _ ih =>
      obtain ⟨character, content, coded, read, rfl⟩ := step_eq_some found
      obtain ⟨spelling, rfl, spells⟩ := ih read
      have short : escape ≠ 'u' ∧ escape ≠ 'U' := by
        constructor <;> (rintro rfl; cases coded)
      exact ⟨_ :: _ :: spelling, rfl, fun other _ => by
        simp [readBasic?, coded, spells other trivial, short]⟩
  | case6 character chars noQuote _ _ alone ih =>
      obtain ⟨content, printable, read, rfl⟩ := plain_step_eq_some found
      have plain : character ≠ '\\' := by
        intro same
        cases chars with
        | nil => cases read
        | cons escape chars => exact alone escape chars same rfl
      obtain ⟨spelling, rfl, spells⟩ := ih read
      exact ⟨_ :: spelling, rfl, fun other _ => by
        simp [readBasic?, guard, plain, printable, spells other trivial]⟩

theorem exists_literal {chars content rest : List Char}
    (found : readLiteral? chars = some (content, rest)) :
    ∃ spelling, chars = spelling ++ rest ∧
      Spells (fun _ => True) readLiteral? content spelling := by
  fun_induction readLiteral? chars generalizing content with
  | case1 => cases found
  | case2 =>
      cases found
      exact ⟨['\x27'], rfl, fun other _ => by simp [readLiteral?]⟩
  | case3 character chars noQuote ih =>
      obtain ⟨content, printable, read, rfl⟩ := plain_step_eq_some found
      obtain ⟨spelling, rfl, spells⟩ := ih read
      exact ⟨_ :: spelling, rfl, fun other _ => by
        simp [readLiteral?, guard, printable, spells other trivial]⟩

theorem exists_shortText {chars content rest : List Char}
    (found : readShortText? chars = some (content, rest)) :
    ∃ quote spelling, (quote = '"' ∨ quote = '\x27') ∧ chars = quote :: (spelling ++ rest) ∧
      Spells (fun _ => True) readShortText? content (quote :: spelling) := by
  unfold readShortText? at found
  split at found
  · obtain ⟨spelling, whole, spells⟩ := exists_basic found
    exact ⟨'"', spelling, Or.inl rfl, congrArg ('"' :: ·) whole, spells⟩
  · obtain ⟨spelling, whole, spells⟩ := exists_literal found
    exact ⟨'\x27', spelling, Or.inr rfl, congrArg ('\x27' :: ·) whole, spells⟩
  · cases found

/-! ## Strings on several lines -/

/-- The text is read as the items up to its end, unless a quote of its own kind follows. It has
room for the three quotes that close it. -/
structure SpellsLong {α : Type} (quote : Char) (read : List Char → Option (List α × List Char))
    (items : List α) (spelling : List Char) : Prop where
  long : 2 < spelling.length
  spells : Spells (fun rest => rest.head? ≠ some quote) read items spelling

theorem SpellsLong.append {α : Type} {quote : Char} {read : List Char → Option (List α × List Char)}
    {items : List α} {spelling : List Char} (spells : SpellsLong quote read items spelling)
    (more : List α) (front : List Char)
    (reads : ∀ rest, read (front ++ (spelling ++ rest)) =
      (read (spelling ++ rest)).map fun (items, rest) => (more ++ items, rest)) :
    SpellsLong quote read (more ++ items) (front ++ spelling) where
  long := by
    have long := spells.long
    simp only [List.length_append]
    omega
  spells rest ends := by
    simp only [List.append_assoc, reads, spells.spells rest ends, Option.map_some]

/-- Where the reader takes some characters for certain items, what it reads with them in front has a
spelling if what it reads behind them has. -/
theorem exists_spelling_append {α : Type} {quote : Char}
    {read : List Char → Option (List α × List Char)} {items : List α} {chars rest : List Char}
    (more : List α) (front : List Char)
    (ih : ∀ {items}, read chars = some (items, rest) →
      ∃ spelling, chars = spelling ++ rest ∧ SpellsLong quote read items spelling)
    (found : ((read chars).map fun (items, rest) => (more ++ items, rest)) = some (items, rest))
    (reads : ∀ chars, read (front ++ chars) =
      (read chars).map fun (items, rest) => (more ++ items, rest)) :
    ∃ spelling, front ++ chars = spelling ++ rest ∧ SpellsLong quote read items spelling := by
  obtain ⟨⟨items, _⟩, found, made⟩ := Option.map_eq_some_iff.mp found
  cases made
  obtain ⟨spelling, rfl, spells⟩ := ih found
  exact ⟨front ++ spelling, (List.append_assoc ..).symm,
    spells.append more front fun _ => reads _⟩

/-- The quotes that close a long string are read up to something else than a quote. -/
theorem SpellsLong.closing {α : Type} {quote : Char}
    {read : List Char → Option (List α × List Char)} {items : List α} {spelling : List Char}
    (long : 2 < spelling.length) (atEnd : read spelling = some (items, []))
    (reads : ∀ character rest, character ≠ quote →
      read (spelling ++ character :: rest) = some (items, character :: rest)) :
    SpellsLong quote read items spelling where
  long := long
  spells rest ends := by
    cases rest with
    | nil => simpa using atEnd
    | cons character rest => exact reads character rest fun same => ends (congrArg some same)

section Plain

variable {character : Char} {chars : List Char} (printable : isPrintable character = true)

include printable

theorem ne_lineBreak : character ≠ '\n' ∧ character ≠ '\r' := by
  constructor <;> (rintro rfl; exact absurd printable (by decide))

/-- A character that stands for itself, unless it is the first of three quotes. -/
theorem readLongPieces?_plain (plain : character ≠ '\\')
    (noClose : ∀ later, character = '"' → chars = '"' :: '"' :: later → False) :
    readLongPieces? (character :: chars) =
      (readLongPieces? chars).map fun (pieces, rest) => ([.plain character] ++ pieces, rest) := by
  obtain ⟨noBreak, noReturn⟩ := ne_lineBreak printable
  rw [readLongPieces?.eq_14 character chars (fun _ same whole => noClose _ same whole)
    (fun _ same whole => noClose _ same whole) noClose (fun _ _ _ _ _ same => absurd same plain)
    (fun _ _ _ _ _ _ _ _ _ same => absurd same plain) (fun _ same => absurd same plain)
    (fun _ same => absurd same plain) (fun _ same => absurd same plain)
    (fun _ same => absurd same plain) (fun _ _ same => absurd same plain) noBreak
    (fun _ same => absurd same noReturn)]
  simp only [printable, guard, ↓reduceIte]
  cases readLongPieces? chars <;> rfl

theorem readLongLiteral?_plain
    (noClose : ∀ later, character = '\x27' → chars = '\x27' :: '\x27' :: later → False) :
    readLongLiteral? (character :: chars) =
      (readLongLiteral? chars).map fun (content, rest) => ([character] ++ content, rest) := by
  obtain ⟨noBreak, noReturn⟩ := ne_lineBreak printable
  rw [readLongLiteral?.eq_7 character chars (fun _ same whole => noClose _ same whole)
    (fun _ same whole => noClose _ same whole) noClose noBreak (fun _ same => absurd same noReturn)]
  simp only [printable, guard, ↓reduceIte]
  cases readLongLiteral? chars <;> rfl

end Plain

/-- What begins with the same two characters closes a long string no more than before. -/
theorem noClose_of_append {character quote : Char} {spelling rest : List Char} (other : List Char)
    (long : 2 < spelling.length)
    (noClose : ∀ later, character = quote → spelling ++ rest = quote :: quote :: later → False)
    (later : List Char) (same : character = quote) :
    spelling ++ other = quote :: quote :: later → False := by
  intro whole
  match spelling, long with
  | first :: second :: spelling, _ =>
      cases whole
      exact noClose _ same rfl

theorem exists_longPieces {chars rest : List Char} {pieces : List LongPiece}
    (found : readLongPieces? chars = some (pieces, rest)) :
    ∃ spelling, chars = spelling ++ rest ∧ SpellsLong '"' readLongPieces? pieces spelling := by
  fun_induction readLongPieces? chars generalizing pieces with
  | case1 =>
      cases found
      exact ⟨['"', '"', '"', '"', '"'], rfl, .closing (by decide) rfl fun _ _ _ => rfl⟩
  | case2 =>
      cases found
      refine ⟨['"', '"', '"', '"'], rfl, .closing (by decide) rfl fun character rest other => ?_⟩
      simp [readLongPieces?, other]
  | case3 =>
      cases found
      refine ⟨['"', '"', '"'], rfl, .closing (by decide) rfl fun character rest other => ?_⟩
      simp [readLongPieces?, other]
  | case4 => cases found
  | case5 d1 d2 d3 d4 chars ih =>
      obtain ⟨character, pieces, coded, read, rfl⟩ := step_eq_some found
      obtain ⟨spelling, rfl, spells⟩ := ih read
      refine ⟨['\\', 'u', d1, d2, d3, d4] ++ spelling, rfl,
        spells.append [.escaped character] _ fun rest => ?_⟩
      cases later : readLongPieces? (spelling ++ rest) <;> simp [readLongPieces?, coded, later]
  | case6 d1 d2 d3 d4 d5 d6 d7 d8 chars ih =>
      obtain ⟨character, pieces, coded, read, rfl⟩ := step_eq_some found
      obtain ⟨spelling, rfl, spells⟩ := ih read
      refine ⟨['\\', 'U', d1, d2, d3, d4, d5, d6, d7, d8] ++ spelling, rfl,
        spells.append [.escaped character] _ fun rest => ?_⟩
      cases later : readLongPieces? (spelling ++ rest) <;> simp [readLongPieces?, coded, later]
  | case7 chars ih =>
      exact exists_spelling_append [LongPiece.join, .plain ' '] ['\\', ' '] ih found
        fun _ => by simp [readLongPieces?]
  | case8 chars ih =>
      exact exists_spelling_append [LongPiece.join, .plain '\t'] ['\\', '\t'] ih found
        fun _ => by simp [readLongPieces?]
  | case9 chars ih =>
      exact exists_spelling_append [LongPiece.join, .plain '\n'] ['\\', '\n'] ih found
        fun _ => by simp [readLongPieces?]
  | case10 chars ih =>
      exact exists_spelling_append [LongPiece.join, .plain '\n'] ['\\', '\r', '\n'] ih found
        fun _ => by simp [readLongPieces?]
  | case11 escape chars _ _ noBlank noTab noBreak _ ih =>
      obtain ⟨character, pieces, coded, read, rfl⟩ := step_eq_some found
      obtain ⟨spelling, rfl, spells⟩ := ih read
      have short : escape ≠ 'u' ∧ escape ≠ 'U' ∧ escape ≠ '\r' := by
        refine ⟨?_, ?_, ?_⟩ <;> (rintro rfl; cases coded)
      refine ⟨['\\', escape] ++ spelling, rfl, spells.append [.escaped character] _ fun rest => ?_⟩
      cases later : readLongPieces? (spelling ++ rest) <;>
        simp [readLongPieces?, coded, later, short]
  | case12 chars ih =>
      exact exists_spelling_append [LongPiece.plain '\n'] ['\n'] ih found
        fun _ => by simp [readLongPieces?]
  | case13 chars ih =>
      exact exists_spelling_append [LongPiece.plain '\n'] ['\r', '\n'] ih found
        fun _ => by simp [readLongPieces?]
  | case14 character chars _ _ noClose _ _ _ _ _ _ alone _ _ ih =>
      obtain ⟨pieces, printable, read, rfl⟩ := plain_step_eq_some found
      have plain : character ≠ '\\' := by
        intro same
        cases chars with
        | nil => cases read
        | cons escape chars => exact alone escape chars same rfl
      obtain ⟨spelling, rfl, spells⟩ := ih read
      exact ⟨[character] ++ spelling, rfl, spells.append [.plain character] _ fun rest =>
        readLongPieces?_plain printable plain (noClose_of_append rest spells.long noClose)⟩

theorem exists_longLiteral {chars content rest : List Char}
    (found : readLongLiteral? chars = some (content, rest)) :
    ∃ spelling, chars = spelling ++ rest ∧ SpellsLong '\x27' readLongLiteral? content spelling := by
  fun_induction readLongLiteral? chars generalizing content with
  | case1 =>
      cases found
      exact ⟨['\x27', '\x27', '\x27', '\x27', '\x27'], rfl,
        .closing (by decide) rfl fun _ _ _ => rfl⟩
  | case2 =>
      cases found
      refine ⟨['\x27', '\x27', '\x27', '\x27'], rfl,
        .closing (by decide) rfl fun character rest other => ?_⟩
      simp [readLongLiteral?, other]
  | case3 =>
      cases found
      refine ⟨['\x27', '\x27', '\x27'], rfl,
        .closing (by decide) rfl fun character rest other => ?_⟩
      simp [readLongLiteral?, other]
  | case4 => cases found
  | case5 chars ih =>
      exact exists_spelling_append ['\n'] ['\n'] ih found
        fun _ => by simp [readLongLiteral?]
  | case6 chars ih =>
      exact exists_spelling_append ['\n'] ['\r', '\n'] ih found
        fun _ => by simp [readLongLiteral?]
  | case7 character chars _ _ noClose _ _ ih =>
      obtain ⟨content, printable, read, rfl⟩ := plain_step_eq_some found
      obtain ⟨spelling, rfl, spells⟩ := ih read
      exact ⟨[character] ++ spelling, rfl, spells.append [character] _ fun rest =>
        readLongLiteral?_plain printable (noClose_of_append rest spells.long noClose)⟩

/-- A line break right behind the opening quotes is left out whatever the string ends in. -/
theorem exists_front {chars spelling rest : List Char} (long : 2 < spelling.length)
    (passed : skipNewline chars = spelling ++ rest) :
    ∃ front, chars = front ++ (spelling ++ rest) ∧
      ∀ other, skipNewline (front ++ (spelling ++ other)) = spelling ++ other := by
  cases found : passNewline? chars with
  | some later =>
      simp only [skipNewline, found, Option.getD_some] at passed
      subst passed
      obtain ⟨ending, ended, whole⟩ := passNewline?_eq_some_iff.mp found
      refine ⟨ending, whole, fun other => ?_⟩
      have again : passNewline? (ending ++ (spelling ++ other)) = some (spelling ++ other) :=
        passNewline?_eq_some_iff.mpr ⟨ending, ended, rfl⟩
      simp only [skipNewline, again, Option.getD_some]
  | none =>
      simp only [skipNewline, found, Option.getD_none] at passed
      subst passed
      refine ⟨[], rfl, fun other => ?_⟩
      have again : passNewline? (spelling ++ other) = none := by
        match spelling, long with
        | first :: second :: spelling, _ =>
            cases passed : passNewline? (first :: second :: spelling ++ other) with
            | none => rfl
            | some later =>
                obtain ⟨_, ended, whole⟩ := passNewline?_eq_some_iff.mp passed
                cases ended <;> (cases whole; cases found)
      simp only [skipNewline, List.nil_append, again, Option.getD_none]

theorem exists_text {chars content rest : List Char}
    (found : readText? chars = some (content, rest)) :
    ∃ quote spelling, (quote = '"' ∨ quote = '\x27') ∧ chars = quote :: (spelling ++ rest) ∧
      Spells (fun rest => rest.head? ≠ some '"' ∧ rest.head? ≠ some '\x27') readText? content
        (quote :: spelling) := by
  unfold readText? at found
  split at found
  · rename_i chars
    simp only [Option.bind_eq_bind, Option.bind_eq_some_iff] at found
    obtain ⟨⟨pieces, behind⟩, read, content, joined, made⟩ := found
    cases made
    obtain ⟨spelling, passed, spells⟩ := exists_longPieces read
    obtain ⟨front, rfl, again⟩ := exists_front spells.long passed
    refine ⟨'"', ['"', '"'] ++ (front ++ spelling), Or.inl rfl, by simp, fun other apart => ?_⟩
    simp [readText?, again, spells.spells other apart.1, joined]
  · rename_i chars
    obtain ⟨spelling, passed, spells⟩ := exists_longLiteral found
    obtain ⟨front, rfl, again⟩ := exists_front spells.long passed
    refine ⟨'\x27', ['\x27', '\x27'] ++ (front ++ spelling), Or.inr rfl, by simp,
      fun other apart => ?_⟩
    simp [readText?, again, spells.spells other apart.2]
  · rename_i noLong noLongLiteral
    obtain ⟨quote, spelling, quoted, rfl, spells⟩ := exists_shortText found
    refine ⟨quote, spelling, quoted, rfl, fun other apart => ?_⟩
    have reads := spells other trivial
    simp only [List.cons_append] at reads ⊢
    unfold readText?
    split
    -- Read as a short string, what begins with three quotes is empty and leaves the third.
    · rename_i whole
      simp only [whole, readShortText?, readBasic?, Option.some.injEq, Prod.mk.injEq] at reads
      exact absurd (by simp [← reads.2]) apart.1
    · rename_i whole
      simp only [whole, readShortText?, readLiteral?, Option.some.injEq, Prod.mk.injEq] at reads
      exact absurd (by simp [← reads.2]) apart.2
    · exact reads

end SemanticHighlight.Toml
