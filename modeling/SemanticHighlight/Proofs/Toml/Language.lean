import Mathlib.Data.List.Induction
import SemanticHighlight.Proofs.Toml.Entry
import SemanticHighlight.Proofs.Toml.Layout

/-!
# What is assumed of TOML

The grammar says how a text is laid out from statements, with the blanks, comments and line ends
that it may hold and the places where these may be. It leaves open how names and values that hold no
others are spelled. What statements make of the root table is left open too, and assumed of one
statement at a time: it speaks of one key of the root, of the first in its path, with the path of
its header in front. It sets this key as a whole if no other is behind it. In all other cases there
is a table under the key that other statements may still add to.

From there it follows what a root table holds, and that assignments behind one header may be
exchanged.
-/

set_option autoImplicit false

namespace SemanticHighlight.Toml

/-! ## Grammar -/

/-- What the grammar leaves open. -/
structure Lexicon where
  /-- How deep values may be nested, and how many parts a key may have. -/
  limit : Nat
  /-- How a part of a key is spelled. -/
  Part : String → List Char → Prop
  /-- How a value that holds no others is spelled. -/
  Scalar : Value → List Char → Prop
  /-- Adds one more assignment to a table in braces, if it may stand there. -/
  add? : Value → List String → Entries → Option Entries

/-- What is written by a value, by the items of an array up to its closing bracket, and by the
entries of a table in braces, told by what is read before and behind them. -/
inductive Meaning where
  | value (value : Value)
  | items (items : List Value)
  | entries (before after : Entries)

namespace Lexicon

/-- A key of at most so many parts, with the blanks around each of them. -/
inductive Key (lexicon : Lexicon) : Nat → List String → List Char → Prop where
  | last {parts : Nat} {name : String} {before spelling after : List Char}
      (blankBefore : Blanks before) (spelled : lexicon.Part name spelling)
      (blankAfter : Blanks after) :
      Key lexicon (parts + 1) [name] (before ++ (spelling ++ after))
  | dotted {parts : Nat} {name : String} {path : List String}
      {before spelling after key : List Char}
      (blankBefore : Blanks before) (spelled : lexicon.Part name spelling)
      (blankAfter : Blanks after) (later : Key lexicon parts path key) :
      Key lexicon (parts + 1) (name :: path) (before ++ (spelling ++ (after ++ '.' :: key)))

/-- A key, the sign behind it, and the blanks up to the value. -/
inductive Assignee (lexicon : Lexicon) (path : List String) : List Char → Prop where
  | intro {key blanks : List Char} (named : lexicon.Key lexicon.limit path key)
      (blank : Blanks blanks) : Assignee lexicon path (key ++ '=' :: blanks)

/-- A text with this meaning that holds values nested at most so deep. -/
inductive Written (lexicon : Lexicon) : Nat → Meaning → List Char → Prop where
  | scalar {depth : Nat} {value : Value} {spelling : List Char}
      (spelled : lexicon.Scalar value spelling) : Written lexicon depth (.value value) spelling
  | array {depth : Nat} {items : List Value} {filler text : List Char}
      (fills : Filler false filler) (listed : Written lexicon depth (.items items) text) :
      Written lexicon (depth + 1) (.value (.array items)) ('[' :: (filler ++ text))
  | emptyBraces {depth : Nat} {blanks : List Char} (blank : Blanks blanks) :
      Written lexicon (depth + 1) (.value (.table .braces [])) ('\x7b' :: (blanks ++ ['\x7d']))
  | braces {depth : Nat} {entries : Entries} {blanks text : List Char} (blank : Blanks blanks)
      (listed : Written lexicon depth (.entries [] entries) text) :
      Written lexicon (depth + 1) (.value (.table .braces entries)) ('\x7b' :: (blanks ++ text))
  | noItems {depth : Nat} : Written lexicon depth (.items []) [']']
  | lastItem {depth : Nat} {item : Value} {text filler : List Char}
      (written : Written lexicon depth (.value item) text) (fills : Filler false filler) :
      Written lexicon depth (.items [item]) (text ++ (filler ++ [']']))
  | item {depth : Nat} {item : Value} {items : List Value} {text before after others : List Char}
      (written : Written lexicon depth (.value item) text) (fillsBefore : Filler false before)
      (fillsAfter : Filler false after) (later : Written lexicon depth (.items items) others) :
      Written lexicon depth (.items (item :: items))
        (text ++ (before ++ ',' :: (after ++ others)))
  | lastEntry {depth : Nat} {before after : Entries} {path : List String} {value : Value}
      {assignee text blanks : List Char} (assigns : lexicon.Assignee path assignee)
      (written : Written lexicon depth (.value value) text)
      (added : lexicon.add? value path before = some after) (blank : Blanks blanks) :
      Written lexicon depth (.entries before after) (assignee ++ (text ++ (blanks ++ ['\x7d'])))
  | entry {depth : Nat} {before middle after : Entries} {path : List String} {value : Value}
      {assignee text blanks others : List Char} (assigns : lexicon.Assignee path assignee)
      (written : Written lexicon depth (.value value) text)
      (added : lexicon.add? value path before = some middle) (blank : Blanks blanks)
      (later : Written lexicon depth (.entries middle after) others) :
      Written lexicon depth (.entries before after)
        (assignee ++ (text ++ (blanks ++ ',' :: others)))

/-- A statement, up to the last visible character of its line but for a comment. -/
inductive StatementText (lexicon : Lexicon) : Statement → List Char → Prop where
  | assign {path : List String} {value : Value} {assignee text : List Char}
      (assigns : lexicon.Assignee path assignee)
      (written : lexicon.Written lexicon.limit (.value value) text) :
      StatementText lexicon (.assign path value) (assignee ++ text)
  | table {path : List String} {key : List Char} (named : lexicon.Key lexicon.limit path key) :
      StatementText lexicon (.table path) ('[' :: (key ++ [']']))
  | element {path : List String} {key : List Char} (named : lexicon.Key lexicon.limit path key) :
      StatementText lexicon (.element path) ('[' :: '[' :: (key ++ [']', ']']))

/-- Lines that each hold one statement or none. -/
inductive Lines (lexicon : Lexicon) : List Statement → List Char → Prop where
  | nil : Lines lexicon [] []
  | empty {statements : List Statement} {ending rest : List Char} (ended : LineEnd rest ending)
      (later : Lines lexicon statements rest) : Lines lexicon statements (ending ++ rest)
  | line {statement : Statement} {statements : List Statement} {blanks text ending rest : List Char}
      (blank : Blanks blanks) (stated : lexicon.StatementText statement text)
      (ended : LineEnd rest ending) (later : Lines lexicon statements rest) :
      Lines lexicon (statement :: statements) (blanks ++ (text ++ (ending ++ rest)))

/-- The text consists of lines with these statements, maybe behind a byte order mark. -/
def LaidOut (lexicon : Lexicon) (statements : List Statement) (text : String) : Prop :=
  lexicon.Lines statements (skipByteOrderMark text.toList)

end Lexicon

/-! ## What statements speak of -/

namespace Statement

/-- The header that the statements behind this one stand behind. -/
def headerBehind (header : List String) : Statement → List String
  | assign _ _ => header
  | table path | element path => path

/-- The root key that a statement behind this header speaks of, and its value if it is set as a
whole. -/
def mention (header : List String) : Statement → Option (String × Option Value)
  | assign path value =>
      match header, path with
      | [], [key] => some (key, some value)
      | header, path => (header ++ path).head?.map fun key => (key, none)
  | table path | element path => path.head?.map fun key => (key, none)

end Statement

/-- The root keys that statements behind this header speak of, each with its value if it is set as a
whole. -/
def mentions (header : List String) : List Statement → List (String × Option Value)
  | [] => []
  | statement :: statements =>
      (statement.mention header).toList ++ mentions (statement.headerBehind header) statements

theorem mentions_concat (header : List String) (statements : List Statement)
    (statement : Statement) :
    mentions header (statements ++ [statement]) = mentions header statements ++
      (statement.mention (statements.foldl Statement.headerBehind header)).toList := by
  induction statements generalizing header with
  | nil => simp only [mentions, List.nil_append, List.append_nil, List.foldl_nil]
  | cons first statements ih =>
      rw [List.cons_append, mentions, mentions, ih, List.append_assoc, List.foldl_cons]

theorem assign_mem_of_mem_mentions {header : List String} {statements : List Statement}
    {key : String} {value : Value} (told : (key, some value) ∈ mentions header statements) :
    .assign [key] value ∈ statements := by
  induction statements generalizing header with
  | nil => cases told
  | cons statement statements ih =>
      cases List.mem_append.mp told with
      | inr later => exact List.mem_cons_of_mem _ (ih later)
      | inl now =>
          have mentioned := Option.mem_toList.mp now
          cases statement with
          | assign path given =>
              simp only [Statement.mention] at mentioned
              split at mentioned
              · cases mentioned
                exact List.mem_cons_self
              · obtain ⟨_, _, different⟩ := Option.map_eq_some_iff.mp mentioned
                cases different
          | table path | element path =>
              obtain ⟨_, _, different⟩ := Option.map_eq_some_iff.mp mentioned
              cases different

/-- How a table changes under the one key that is spoken of. -/
inductive Change (before after : Entries) : String × Option Value → Prop where
  | sets {key : String} {value : Value} (absent : before.get? key = none)
      (set : after.get? key = some value)
      (others : ∀ other, other ≠ key → after.get? other = before.get? other) :
      Change before after (key, some value)
  | opens {key : String} {value : Value} (set : after.get? key = some value)
      (opened : value.isOpen = true)
      (earlier : ∀ old, before.get? key = some old → old.isOpen = true)
      (others : ∀ other, other ≠ key → after.get? other = before.get? other) :
      Change before after (key, none)

/-- The keys and values of a table, but for tables that may still be added to. -/
def Entries.Holds (entries : Entries) : String × Option Value → Prop
  | (key, some value) => entries.get? key = some value ∧ value.isOpen = false
  | (key, none) => ∃ value, entries.get? key = some value ∧ value.isOpen = true

theorem Entries.not_holds_nil (asked : String × Option Value) : ¬ Entries.Holds [] asked := by
  obtain ⟨key, told⟩ := asked
  cases told <;> simp [Holds, get?]

theorem Entries.holds_congr {entries others : Entries} {key : String}
    (same : entries.get? key = others.get? key) (told : Option Value) :
    entries.Holds (key, told) ↔ others.Holds (key, told) := by
  cases told <;> simp only [Holds, same]

/-- Tables that hold the same under a key have the same value there, or both have a table that may
be added to. -/
theorem Entries.get?_of_holds_iff {entries others : Entries} {key : String}
    (agree : ∀ told, entries.Holds (key, told) ↔ others.Holds (key, told)) :
    entries.get? key = others.get? key ∨ ∃ value other, entries.get? key = some value ∧
      others.get? key = some other ∧ value.isOpen = true ∧ other.isOpen = true := by
  cases found : entries.get? key with
  | none =>
      cases also : others.get? key with
      | none => exact .inl rfl
      | some other =>
          cases opened : other.isOpen with
          | false =>
              have holds := (agree (some other)).mpr ⟨also, opened⟩
              rw [Entries.Holds, found] at holds
              cases holds.1
          | true =>
              obtain ⟨value, absent, _⟩ := (agree none).mpr ⟨other, also, opened⟩
              rw [found] at absent
              cases absent
  | some value =>
      cases opened : value.isOpen with
      | false => exact .inl ((agree (some value)).mp ⟨found, opened⟩).1.symm
      | true =>
          obtain ⟨other, also, otherOpened⟩ := (agree none).mp ⟨value, found, opened⟩
          exact .inr ⟨value, other, rfl, also, opened, otherOpened⟩

theorem Change.holds_iff {before after : Entries} {mentioned : String × Option Value}
    (change : Change before after mentioned)
    (closed : ∀ value, mentioned.2 = some value → value.isOpen = false)
    (asked : String × Option Value) :
    after.Holds asked ↔ before.Holds asked ∨ asked = mentioned := by
  obtain ⟨other, told⟩ := asked
  cases change with
  | @sets key value absent set others =>
      by_cases same : other = key
      · subst same
        have leaf := closed value rfl
        cases told with
        | none => simp [Entries.Holds, set, absent, leaf]
        | some told =>
            have listed : value = told ∧ told.isOpen = false ↔ told = value := by
              constructor
              · exact fun set => set.1.symm
              · intro set
                subst set
                exact ⟨rfl, leaf⟩
            simpa [Entries.Holds, set, absent] using listed
      · simp [Entries.holds_congr (others other same), same]
  | @opens key value set opened earlier others =>
      by_cases same : other = key
      · subst same
        cases told with
        | none => simp [Entries.Holds, set, opened]
        | some told =>
            -- Neither before nor behind can there be something else than a table to add to.
            have apart : ¬ (value = told ∧ told.isOpen = false) := by
              intro listed
              obtain ⟨rfl, leaf⟩ := listed
              rw [opened] at leaf
              cases leaf
            have never : ¬ (before.get? other = some told ∧ told.isOpen = false) := by
              intro listed
              obtain ⟨found, leaf⟩ := listed
              rw [earlier told found] at leaf
              cases leaf
            simpa [Entries.Holds, set, never] using apart
      · simp [Entries.holds_congr (others other same), same]

/-! ## Languages -/

/-- A grammar, and what is made of the statements of a text. -/
structure Language extends Lexicon where
  /-- The root table of statements that may stand together. -/
  build? : List Statement → Option Entries

/-- The text is read as this root table. -/
def Language.Reads (language : Language) (text : String) (root : Entries) : Prop :=
  ∃ statements, language.LaidOut statements text ∧ language.build? statements = some root

/-- What the documentation says of values, of one statement behind others, and of neighbours. -/
structure Language.Documented (language : Language) : Prop where
  /-- A value on its own is no table that statements may still add to. -/
  scalar_closed : ∀ value spelling, language.Scalar value spelling → value.isOpen = false
  build_nil : language.build? [] = some []
  /-- The last statement changes nothing but the root key that it speaks of. -/
  build_concat : ∀ statements statement after,
    language.build? (statements ++ [statement]) = some after →
      ∃ before mentioned, language.build? statements = some before ∧
        statement.mention (statements.foldl Statement.headerBehind []) = some mentioned ∧
        Change before after mentioned
  build_distinct : ∀ statements root, language.build? statements = some root →
    (root.map Prod.fst).Nodup
  /-- Whether two assignments may stand next to each other does not depend on which comes first. -/
  build_exchange : ∀ front path value next other back, value.isOpen = false → other.isOpen = false →
    (language.build? (front ++ .assign path value :: .assign next other :: back)).isSome =
      (language.build? (front ++ .assign next other :: .assign path value :: back)).isSome

namespace Language.Documented

variable {language : Language} (documented : language.Documented)

include documented

theorem written_closed {depth : Nat} {value : Value} {text : List Char}
    (written : language.Written depth (.value value) text) : value.isOpen = false := by
  cases written with
  | scalar spelled => exact documented.scalar_closed _ _ spelled
  | array | emptyBraces | braces => rfl

theorem assigned_closed {statements : List Statement} {chars : List Char}
    (lines : language.Lines statements chars) {path : List String} {value : Value}
    (stated : .assign path value ∈ statements) : value.isOpen = false := by
  induction lines with
  | nil => cases stated
  | empty _ _ ih => exact ih stated
  | line _ text _ _ ih =>
      cases List.mem_cons.mp stated with
      | inl same =>
          subst same
          cases text with
          | assign _ written => exact documented.written_closed written
      | inr later => exact ih later

theorem build_holds_iff {statements : List Statement} {root : Entries}
    (closed : ∀ key value, (key, some value) ∈ mentions [] statements → value.isOpen = false)
    (built : language.build? statements = some root) (asked : String × Option Value) :
    root.Holds asked ↔ asked ∈ mentions [] statements := by
  induction statements using List.reverseRecOn generalizing root with
  | nil =>
      rw [documented.build_nil] at built
      cases built
      exact iff_of_false (Entries.not_holds_nil asked) List.not_mem_nil
  | append_singleton statements statement ih =>
      obtain ⟨before, mentioned, earlier, told, change⟩ := documented.build_concat _ _ _ built
      rw [mentions_concat, told, Option.toList_some] at closed ⊢
      have closedBefore := fun key value listed =>
        closed key value (List.mem_append_left _ listed)
      have closedLast : ∀ value, mentioned.2 = some value → value.isOpen = false := by
        intro value set
        refine closed mentioned.1 value (List.mem_append_right _ ?_)
        rw [← set, List.mem_singleton]
      rw [change.holds_iff closedLast, ih closedBefore earlier, List.mem_append,
        List.mem_singleton]

/-- A root table holds just what the statements of its text tell. -/
theorem holds_iff {statements : List Statement} {text : String} {root : Entries}
    (laidOut : language.LaidOut statements text) (built : language.build? statements = some root)
    (asked : String × Option Value) : root.Holds asked ↔ asked ∈ mentions [] statements := by
  refine documented.build_holds_iff ?_ built asked
  intro key value told
  exact documented.assigned_closed laidOut (assign_mem_of_mem_mentions told)

end Language.Documented

/-! ## Assignments in another order -/

/-- The same statements, with the assignments behind each header in another order. -/
inductive Reordered : List Statement → List Statement → Prop where
  | refl (statements : List Statement) : Reordered statements statements
  | swap {path next : List String} {value other : Value} {statements : List Statement} :
      Reordered (.assign path value :: .assign next other :: statements)
        (.assign next other :: .assign path value :: statements)
  | cons {statement : Statement} {statements others : List Statement}
      (later : Reordered statements others) :
      Reordered (statement :: statements) (statement :: others)
  | trans {first second third : List Statement} (before : Reordered first second)
      (after : Reordered second third) : Reordered first third

namespace Reordered

variable {statements others : List Statement}

theorem mem_iff (reordered : Reordered statements others) (statement : Statement) :
    statement ∈ statements ↔ statement ∈ others := by
  induction reordered with
  | refl => exact Iff.rfl
  | swap => simp only [List.mem_cons, or_left_comm]
  | cons _ ih => simp only [List.mem_cons, ih]
  | trans _ _ ih laterIH => exact ih.trans laterIH

theorem mentions_iff (reordered : Reordered statements others) (header : List String)
    (asked : String × Option Value) :
    asked ∈ mentions header statements ↔ asked ∈ mentions header others := by
  induction reordered generalizing header with
  | refl => exact Iff.rfl
  | swap => simp only [mentions, Statement.headerBehind, List.mem_append, or_left_comm]
  | cons _ ih => simp only [mentions, List.mem_append, ih]
  | trans _ _ ih laterIH => exact (ih header).trans (laterIH header)

theorem isSome_build {language : Language} (documented : language.Documented)
    (reordered : Reordered statements others)
    (closed : ∀ path value, .assign path value ∈ statements → value.isOpen = false)
    (front : List Statement) :
    (language.build? (front ++ statements)).isSome =
      (language.build? (front ++ others)).isSome := by
  induction reordered generalizing front with
  | refl => rfl
  | @swap path next value other statements =>
      have first := closed path value (by simp)
      have second := closed next other (by simp)
      exact documented.build_exchange front path value next other statements first second
  | @cons statement statements others _ ih =>
      have same := ih (fun path value stated => closed path value (.tail _ stated))
        (front ++ [statement])
      rwa [List.append_assoc, List.append_assoc] at same
  | trans before _ ih laterIH =>
      rw [ih closed]
      exact laterIH (fun path value stated =>
        closed path value ((before.mem_iff _).mpr stated)) front

end Reordered

end SemanticHighlight.Toml
