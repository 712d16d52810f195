import SemanticHighlight.Proofs.Toml.Language
import SemanticHighlight.Proofs.Toml.Lexeme

/-!
# How keys and values are read

With the spellings that they read, the readers follow the grammar: they read what is written by it,
whatever stands behind it that may, and nothing else.
-/

set_option autoImplicit false

namespace SemanticHighlight.Toml

/-- The spellings that are read, and the nesting that is allowed. -/
def lexicon : Lexicon where
  limit := depthLimit
  Part := Spells EndsPart readKeyPart?
  Scalar := Spells EndsValue readScalar?
  add? value path entries := entries.assign? value path

/-! ## What may stand behind a value -/

theorem Blanks.endsValue {blanks rest : List Char} (blank : Blanks blanks)
    (ends : EndsValue rest) : EndsValue (blanks ++ rest) := by
  unfold EndsValue
  rw [skipBlanks_append blank]
  exact ends

theorem endsValue_cons {character : Char} (closes : character ∈ closers) (rest : List Char) :
    EndsValue (character :: rest) := by
  have visible : isBlank character = false := by
    have none : closers.any isBlank = false := by decide
    simpa using List.any_eq_false.mp none character closes
  intro first found
  simp only [skipBlanks, List.dropWhile_cons, visible, Bool.false_eq_true, ↓reduceIte,
    List.head?_cons, Option.some.injEq] at found
  exact found ▸ closes

theorem LineBreak.endsValue {ending : List Char} (ended : LineBreak ending) (rest : List Char) :
    EndsValue (ending ++ rest) := by
  cases ended with
  | plain => exact endsValue_cons (by decide) rest
  | withReturn => exact endsValue_cons (by decide) ('\n' :: rest)

theorem LineEnd.endsValue {rest ending : List Char} (ended : LineEnd rest ending) :
    EndsValue (ending ++ rest) := by
  cases ended with
  | broken blank remarked ended =>
      simp only [List.append_assoc]
      refine blank.endsValue ?_
      cases remarked with
      | none => exact ended.endsValue rest
      | words => exact endsValue_cons (by decide) _
  | last blank remarked atEnd =>
      subst atEnd
      simp only [List.append_nil]
      refine blank.endsValue ?_
      cases remarked with
      | none => exact endsValue_nil
      | words => exact endsValue_cons (by decide) _

theorem Filler.endsValue {inComment : Bool} {filler rest : List Char}
    (fills : Filler inComment filler) (outside : inComment = false) (ends : EndsValue rest) :
    EndsValue (filler ++ rest) := by
  induction fills with
  | nil => exact ends
  | @blank character filler blank _ ih =>
      have blanks : Blanks [character] := by simpa [Blanks] using blank
      exact blanks.endsValue (ih rfl)
  | remark => exact endsValue_cons (by decide) _
  | word => cases outside
  | @broken _ ending filler ended =>
      rw [List.append_assoc]
      exact ended.endsValue (filler ++ rest)

/-! ## First characters -/

/-- The characters that values begin with. -/
def opensValue (character : Char) : Bool :=
  opensScalar character || character ∈ ['[', '\x7b']

theorem code_of_isAlphanum {character : Char} (letter : character.isAlphanum = true) :
    48 ≤ character.toNat ∧ character.toNat ≤ 122 := by
  have between {first last : Char} (low : 48 ≤ first.toNat) (high : last.toNat ≤ 122)
      (least : first.val ≤ character.val) (greatest : character.val ≤ last.val) :
      48 ≤ character.toNat ∧ character.toNat ≤ 122 :=
    ⟨Nat.le_trans low least, Nat.le_trans greatest high⟩
  cases Bool.or_eq_true_iff.mp letter with
  | inl alpha =>
      cases Bool.or_eq_true_iff.mp alpha with
      | inl upper =>
          have bounds : 'A'.val ≤ character.val ∧ character.val ≤ 'Z'.val := of_decide_eq_true upper
          exact between (by decide) (by decide) bounds.1 bounds.2
      | inr lower =>
          obtain ⟨least, greatest⟩ := Bool.and_eq_true_iff.mp lower
          exact between (by decide) (by decide) (of_decide_eq_true least)
            (of_decide_eq_true greatest)
  | inr digit =>
      obtain ⟨least, greatest⟩ := Bool.and_eq_true_iff.mp digit
      exact between (by decide) (by decide) (of_decide_eq_true least) (of_decide_eq_true greatest)

/-- A character that is neither layout nor a bracket or brace. -/
structure Starts (character : Char) : Prop where
  visible : isBlank character = false
  printable : isPrintable character = true
  apart : character ∉ ['#', '[', ']', '\x7b', '\x7d']

theorem Starts.of_isAlphanum {character : Char} (letter : character.isAlphanum = true) :
    Starts character := by
  have others : ∀ other, other.isAlphanum = false → character ≠ other := by
    intro other noLetter same
    rw [same, noLetter] at letter
    cases letter
  have code := code_of_isAlphanum letter
  refine ⟨?_, ?_, ?_⟩
  · simp [isBlank, others]
  · have inside : 32 ≤ character.toNat ∧ character.toNat ≠ 127 := by omega
    simp [isPrintable, inside]
  · simp [others]

theorem Starts.of_opensKey {character : Char} (opens : opensKey character = true) :
    Starts character := by
  simp only [opensKey, isBareKey, List.mem_cons, List.not_mem_nil, or_false, Bool.or_eq_true,
    beq_iff_eq, decide_eq_true_eq] at opens
  rcases opens with ((letter | rfl) | rfl) | rfl | rfl
  · exact .of_isAlphanum letter
  all_goals exact ⟨by decide, by decide, by decide⟩

theorem Starts.of_opensScalar {character : Char} (opens : opensScalar character = true) :
    Starts character := by
  simp only [opensScalar, opensPlain, List.mem_cons, List.not_mem_nil, or_false, Bool.or_eq_true,
    decide_eq_true_eq] at opens
  rcases opens with (digit | rfl | rfl | rfl | rfl) | rfl | rfl | rfl | rfl
  · exact .of_isAlphanum (by simp [Char.isAlphanum, digit])
  all_goals exact ⟨by decide, by decide, by decide⟩

theorem Lexicon.Part.opensKey {name : String} {spelling : List Char}
    (spelled : lexicon.Part name spelling) :
    ∃ character tail, spelling = character :: tail ∧ opensKey character = true := by
  have alone := spelled [] nofun
  obtain ⟨character, tail, opens, whole, _⟩ := exists_keyPart alone
  simp only [List.append_nil] at whole
  exact ⟨character, tail, whole, opens⟩

theorem Lexicon.Scalar.opensScalar {value : Value} {spelling : List Char}
    (spelled : lexicon.Scalar value spelling) :
    ∃ character tail, spelling = character :: tail ∧ opensScalar character = true := by
  have alone := spelled [] endsValue_nil
  obtain ⟨character, tail, opens, whole, _⟩ := exists_scalar alone endsValue_nil
  simp only [List.append_nil] at whole
  exact ⟨character, tail, whole, opens⟩

/-! ## Keys -/

/-- What may stand behind a key. -/
def EndsKey (rest : List Char) : Prop :=
  ∃ tail, rest = '=' :: tail ∨ rest = ']' :: tail

theorem endsPart_cons {character : Char} (ends : isBareKey character = false)
    (rest : List Char) : EndsPart (character :: rest) := by
  intro first found
  cases found
  exact ends

theorem EndsKey.behind {rest : List Char} (ends : EndsKey rest) :
    EndsPart rest ∧ skipBlanks rest = rest ∧ ∀ tail, rest ≠ '.' :: tail := by
  obtain ⟨tail, rfl | rfl⟩ := ends
  · exact ⟨endsPart_cons (by decide) tail, rfl, nofun⟩
  · exact ⟨endsPart_cons (by decide) tail, rfl, nofun⟩

theorem Blanks.endsPart {blanks rest : List Char} (blank : Blanks blanks) (ends : EndsPart rest) :
    EndsPart (blanks ++ rest) := by
  cases blanks with
  | nil => exact ends
  | cons first blanks =>
      intro character found
      cases found
      have same := blank first List.mem_cons_self
      simp only [isBlank, Bool.or_eq_true, beq_iff_eq] at same
      cases same with
      | inl same | inr same => subst same; decide

theorem Lexicon.Part.skipBlanks {name : String} {before spelling : List Char}
    (spelled : lexicon.Part name spelling) (blank : Blanks before)
    (after : List Char) : skipBlanks (before ++ (spelling ++ after)) = spelling ++ after := by
  obtain ⟨character, tail, rfl, opens⟩ := spelled.opensKey
  rw [skipBlanks_append blank]
  apply skipBlanks_of_head
  intro first found
  cases found
  exact (Starts.of_opensKey opens).visible

theorem Lexicon.Key.starts {parts : Nat} {path : List String} {key : List Char}
    (named : lexicon.Key parts path key) (rest : List Char) :
    ∃ character tail, skipBlanks (key ++ rest) = character :: tail ∧
      opensKey character = true := by
  cases named with
  | last blank spelled | dotted blank spelled =>
      simp only [List.append_assoc, spelled.skipBlanks blank]
      obtain ⟨character, tail, rfl, opens⟩ := spelled.opensKey
      exact ⟨character, _, rfl, opens⟩

theorem exists_key {parts : Nat} {chars rest : List Char} {path : List String}
    (found : readKey? parts chars = some (path, rest)) :
    ∃ key, lexicon.Key parts path key ∧ chars = key ++ rest := by
  induction parts generalizing chars path with
  | zero => cases found
  | succ parts ih =>
      simp only [readKey?, Option.bind_eq_bind, Option.bind_eq_some_iff] at found
      obtain ⟨⟨name, behind⟩, part, found⟩ := found
      obtain ⟨before, blankBefore, whole⟩ := exists_blanks chars
      obtain ⟨character, spelling, _, shape, spelled⟩ := exists_keyPart part
      obtain ⟨after, blankAfter, behindShape⟩ := exists_blanks behind
      rw [shape, behindShape] at whole
      split at found
      · rename_i dot
        obtain ⟨⟨path, left⟩, others, made⟩ := Option.bind_eq_some_iff.mp found
        cases made
        obtain ⟨key, named, rfl⟩ := ih others
        exact ⟨_, .dotted blankBefore spelled blankAfter named, by simp [whole, dot]⟩
      · cases found
        exact ⟨_, .last blankBefore spelled blankAfter, by simp [whole]⟩

theorem Lexicon.Key.read {parts : Nat} {path : List String} {key rest : List Char}
    (named : lexicon.Key parts path key) (ends : EndsKey rest) :
    readKey? parts (key ++ rest) = some (path, rest) := by
  induction named with
  | @last parts name before spelling after blankBefore spelled blankAfter =>
      obtain ⟨endsPart, visible, noDot⟩ := ends.behind
      have part := spelled (after ++ rest) (blankAfter.endsPart endsPart)
      simp only [readKey?, List.append_assoc, spelled.skipBlanks blankBefore, part,
        skipBlanks_append blankAfter, visible, Option.bind_eq_bind, Option.bind_some]
      rfl
  | @dotted parts name path before spelling after key blankBefore spelled blankAfter _ ih =>
      have endsPart : EndsPart ('.' :: (key ++ rest)) := endsPart_cons (by decide) _
      have part := spelled (after ++ '.' :: (key ++ rest)) (blankAfter.endsPart endsPart)
      have dot : skipBlanks ('.' :: (key ++ rest)) = '.' :: (key ++ rest) := rfl
      simp only [readKey?, List.append_assoc, List.cons_append, spelled.skipBlanks blankBefore,
        part, skipBlanks_append blankAfter, dot, ih, Option.bind_eq_bind, Option.bind_some]
      rfl

theorem readKey?_skipBlanks (parts : Nat) (chars : List Char) :
    readKey? parts (skipBlanks chars) = readKey? parts chars := by
  cases parts with
  | zero => rfl
  | succ parts => simp only [readKey?, skipBlanks_skipBlanks]

theorem readAssignee?_skipBlanks (chars : List Char) :
    readAssignee? (skipBlanks chars) = readAssignee? chars := by
  simp only [readAssignee?, readKey?_skipBlanks]

theorem pass?_eq_some_iff {expected : Char} {chars rest : List Char} :
    pass? expected chars = some rest ↔ chars = expected :: rest := by
  cases chars with
  | nil => simp [pass?]
  | cons character chars => simp [pass?]

theorem exists_assignee {chars rest : List Char} {path : List String}
    (found : readAssignee? chars = some (path, rest)) :
    ∃ assignee, lexicon.Assignee path assignee ∧ chars = assignee ++ rest := by
  simp only [readAssignee?, Option.bind_eq_bind, Option.bind_eq_some_iff] at found
  obtain ⟨⟨_, behind⟩, keyed, value, passed, made⟩ := found
  cases made
  cases pass?_eq_some_iff.mp passed
  obtain ⟨key, named, whole⟩ := exists_key keyed
  obtain ⟨blanks, blank, shape⟩ := exists_blanks value
  refine ⟨_, .intro named blank, ?_⟩
  rw [whole, List.append_assoc, List.cons_append, ← shape]

theorem Lexicon.Assignee.read {path : List String} {assignee rest : List Char}
    (assigns : lexicon.Assignee path assignee) (visible : skipBlanks rest = rest) :
    readAssignee? (assignee ++ rest) = some (path, rest) := by
  cases assigns with
  | @intro key blanks named blank =>
      have keyed : readKey? depthLimit (key ++ '=' :: (blanks ++ rest)) =
          some (path, '=' :: (blanks ++ rest)) := named.read ⟨_, .inl rfl⟩
      simp only [readAssignee?, List.append_assoc, List.cons_append, keyed, pass?, ↓reduceIte,
        skipBlanks_append blank, visible, Option.bind_eq_bind, Option.bind_some]
      rfl

/-! ## Values -/

theorem Lexicon.Written.opensValue {depth : Nat} {value : Value} {text : List Char}
    (written : lexicon.Written depth (.value value) text) :
    ∃ character tail, text = character :: tail ∧ opensValue character = true := by
  cases written with
  | scalar spelled =>
      obtain ⟨character, tail, rfl, opens⟩ := spelled.opensScalar
      exact ⟨character, tail, rfl, by simp [Toml.opensValue, opens]⟩
  | array | emptyBraces | braces => exact ⟨_, _, rfl, by decide⟩

theorem solid_of_opensValue {character : Char} (opens : opensValue character = true)
    (tail : List Char) : Solid (character :: tail) := by
  refine ⟨character, tail, rfl, ?_⟩
  simp only [opensValue, List.mem_cons, List.not_mem_nil, or_false, Bool.or_eq_true,
    decide_eq_true_eq] at opens
  rcases opens with scalar | rfl | rfl
  · have starts := Starts.of_opensScalar scalar
    exact ⟨starts.visible, starts.printable, fun same => starts.apart (by simp [same])⟩
  all_goals decide

theorem Lexicon.Written.solid_value {depth : Nat} {value : Value} {text : List Char}
    (written : lexicon.Written depth (.value value) text) (rest : List Char) :
    Solid (text ++ rest) := by
  obtain ⟨character, tail, rfl, opens⟩ := written.opensValue
  exact solid_of_opensValue opens _

theorem Lexicon.Written.solid_items {depth : Nat} {items : List Value} {text : List Char}
    (listed : lexicon.Written depth (.items items) text) (rest : List Char) :
    Solid (text ++ rest) := by
  cases listed with
  | noItems => exact ⟨']', rest, rfl, by decide⟩
  | lastItem written | item written =>
      rw [List.append_assoc]
      exact written.solid_value _

theorem Lexicon.Written.visible {depth : Nat} {value : Value} {text : List Char}
    (written : lexicon.Written depth (.value value) text) (rest : List Char) :
    skipBlanks (text ++ rest) = text ++ rest := by
  obtain ⟨character, others, whole, visible, _⟩ := written.solid_value rest
  rw [whole]
  apply skipBlanks_of_head
  intro first found
  cases found
  exact visible

theorem Lexicon.Written.not_closed {depth : Nat} {value : Value} {text : List Char}
    (written : lexicon.Written depth (.value value) text) (rest tail : List Char) :
    text ++ rest ≠ ']' :: tail := by
  obtain ⟨character, text, rfl, opens⟩ := written.opensValue
  intro same
  cases same
  exact absurd opens (by decide)

theorem Lexicon.Assignee.starts {path : List String} {assignee : List Char}
    (assigns : lexicon.Assignee path assignee) (rest : List Char) :
    ∃ character tail, skipBlanks (assignee ++ rest) = character :: tail ∧
      opensKey character = true := by
  cases assigns with
  | intro named _ =>
      rw [List.append_assoc]
      exact named.starts _

theorem Lexicon.Assignee.ne_nil {path : List String} {assignee : List Char}
    (assigns : lexicon.Assignee path assignee) : assignee ≠ [] := by
  cases assigns
  simp

theorem Lexicon.Written.entries_start {depth : Nat} {before after : Entries} {text : List Char}
    (listed : lexicon.Written depth (.entries before after) text) (rest : List Char) :
    ∃ character tail, skipBlanks (text ++ rest) = character :: tail ∧
      opensKey character = true := by
  cases listed with
  | lastEntry assigns | entry assigns =>
      rw [List.append_assoc]
      exact assigns.starts _

theorem readEntries?_skipBlanks (depth : Nat) (before : Entries) (fuel : Nat) (chars : List Char) :
    readEntries? depth before fuel (skipBlanks chars) = readEntries? depth before fuel chars := by
  cases fuel with
  | zero => rfl
  | succ fuel => simp only [readEntries?, readAssignee?_skipBlanks]

/-- Reading goes on behind the first entry. -/
theorem readEntries?_entry {depth fuel : Nat} {before middle : Entries} {path : List String}
    {value : Value} {assignee text tail : List Char} (assigns : lexicon.Assignee path assignee)
    (written : lexicon.Written depth (.value value) text)
    (added : before.assign? value path = some middle)
    (read : readValue? depth fuel (text ++ tail) = some (value, tail)) :
    readEntries? depth before (fuel + 1) (assignee ++ (text ++ tail)) =
      match skipBlanks tail with
      | '\x7d' :: rest => some (middle, rest)
      | ',' :: rest => readEntries? depth middle fuel rest
      | _ => none := by
  have assigned := assigns.read (written.visible tail)
  simp only [readEntries?, assigned, read, added, Option.bind_eq_bind, Option.bind_some]
  rfl

/-- What the readers make of a text with this meaning, whatever stands behind it. -/
def Reads (depth : Nat) : Meaning → List Char → Prop
  | .value value, text => ∀ fuel rest, text.length < fuel → EndsValue rest →
      readValue? depth fuel (text ++ rest) = some (value, rest)
  | .items items, text => ∀ fuel rest, text.length < fuel →
      readItems? depth fuel (text ++ rest) = some (items, rest)
  | .entries before after, text => ∀ fuel rest, text.length < fuel →
      readEntries? depth before fuel (text ++ rest) = some (after, rest)

namespace Reads

variable {depth : Nat} {text : List Char}

theorem scalar {value : Value} (spelled : lexicon.Scalar value text) :
    Reads depth (.value value) text := by
  intro fuel rest enough ends
  obtain ⟨fuel, rfl⟩ := Nat.exists_eq_add_one.mpr (Nat.zero_lt_of_lt enough)
  obtain ⟨character, tail, rfl, opens⟩ := spelled.opensScalar
  have apart := (Starts.of_opensScalar opens).apart
  simp only [List.mem_cons, List.not_mem_nil, or_false, not_or] at apart
  have plain : readValue? depth (fuel + 1) (character :: tail ++ rest) =
      readScalar? (character :: tail ++ rest) := by
    simp [readValue?, apart]
  exact plain.trans (spelled rest ends)

theorem array {items : List Value} {filler : List Char} (fills : Filler false filler)
    (listed : lexicon.Written depth (.items items) text) (reads : Reads depth (.items items) text) :
    Reads (depth + 1) (.value (.array items)) ('[' :: (filler ++ text)) := by
  intro fuel rest enough _
  obtain ⟨fuel, rfl⟩ := Nat.exists_eq_add_one.mpr (Nat.zero_lt_of_lt enough)
  simp only [List.length_cons, List.length_append] at enough
  have passed := skipFiller_append fills (listed.solid_items rest)
  have read := reads fuel rest (by omega)
  simp [readValue?, guard, passed, read]

theorem emptyBraces {blanks : List Char} (blank : Blanks blanks) :
    Reads (depth + 1) (.value (.table .braces [])) ('\x7b' :: (blanks ++ ['\x7d'])) := by
  intro fuel rest enough _
  obtain ⟨fuel, rfl⟩ := Nat.exists_eq_add_one.mpr (Nat.zero_lt_of_lt enough)
  have closed : skipBlanks ('\x7d' :: rest) = '\x7d' :: rest := rfl
  simp [readValue?, guard, skipBlanks_append blank, closed]

theorem braces {entries : Entries} {blanks : List Char} (blank : Blanks blanks)
    (listed : lexicon.Written depth (.entries [] entries) text)
    (reads : Reads depth (.entries [] entries) text) :
    Reads (depth + 1) (.value (.table .braces entries)) ('\x7b' :: (blanks ++ text)) := by
  intro fuel rest enough _
  obtain ⟨fuel, rfl⟩ := Nat.exists_eq_add_one.mpr (Nat.zero_lt_of_lt enough)
  simp only [List.length_cons, List.length_append] at enough
  -- The blanks are passed twice, behind the brace and in front of the first key.
  obtain ⟨character, tail, starts, opens⟩ := listed.entries_start rest
  have read := reads fuel rest (by omega)
  rw [← readEntries?_skipBlanks, starts] at read
  have notClosed : character ≠ '\x7d' := by
    intro same
    exact (Starts.of_opensKey opens).apart (by simp [same])
  simp [readValue?, guard, skipBlanks_append blank, starts, notClosed, read]

theorem noItems : Reads depth (.items []) [']'] := by
  intro fuel rest enough
  obtain ⟨fuel, rfl⟩ := Nat.exists_eq_add_one.mpr (Nat.zero_lt_of_lt enough)
  rfl

section Items

variable {first : Value} (written : lexicon.Written depth (.value first) text)
  (reads : Reads depth (.value first) text)

include written reads

theorem lastItem {filler : List Char} (fills : Filler false filler) :
    Reads depth (.items [first]) (text ++ (filler ++ [']'])) := by
  intro fuel rest enough
  obtain ⟨fuel, rfl⟩ := Nat.exists_eq_add_one.mpr (Nat.zero_lt_of_lt enough)
  simp only [List.length_append, List.length_singleton] at enough
  have closed : EndsValue (filler ++ (']' :: rest)) :=
    fills.endsValue rfl (endsValue_cons (by decide) rest)
  have read := reads fuel _ (by omega) closed
  have passed := skipFiller_append fills ⟨']', rest, rfl, by decide⟩
  simp [readItems?.eq_3 _ _ fuel (written.not_closed _), read, passed]

theorem item {items : List Value} {before after others : List Char}
    (fillsBefore : Filler false before) (fillsAfter : Filler false after)
    (later : lexicon.Written depth (.items items) others)
    (othersReads : Reads depth (.items items) others) :
    Reads depth (.items (first :: items)) (text ++ (before ++ ',' :: (after ++ others))) := by
  intro fuel rest enough
  obtain ⟨fuel, rfl⟩ := Nat.exists_eq_add_one.mpr (Nat.zero_lt_of_lt enough)
  simp only [List.length_append, List.length_cons] at enough
  have closed : EndsValue (before ++ (',' :: (after ++ (others ++ rest)))) :=
    fillsBefore.endsValue rfl (endsValue_cons (by decide) _)
  have read := reads fuel _ (by omega) closed
  have passed := skipFiller_append fillsBefore ⟨',', after ++ (others ++ rest), rfl, by decide⟩
  have resumed := skipFiller_append fillsAfter (later.solid_items rest)
  have readOthers := othersReads fuel rest (by omega)
  simp [readItems?.eq_3 _ _ fuel (written.not_closed _), read, passed, resumed, readOthers]

end Items

section Entries

variable {before middle : Entries} {path : List String} {value : Value}
  {assignee blanks : List Char} (assigns : lexicon.Assignee path assignee)
  (written : lexicon.Written depth (.value value) text) (reads : Reads depth (.value value) text)
  (added : before.assign? value path = some middle) (blank : Blanks blanks)

include assigns written reads added blank

theorem lastEntry :
    Reads depth (.entries before middle) (assignee ++ (text ++ (blanks ++ ['\x7d']))) := by
  intro fuel rest enough
  obtain ⟨fuel, rfl⟩ := Nat.exists_eq_add_one.mpr (Nat.zero_lt_of_lt enough)
  simp only [List.length_append, List.length_singleton] at enough
  have closed : EndsValue (blanks ++ '\x7d' :: rest) :=
    blank.endsValue (endsValue_cons (by decide) rest)
  have read := reads fuel _ (by omega) closed
  have brace : skipBlanks ('\x7d' :: rest) = '\x7d' :: rest := rfl
  simp only [List.append_assoc, List.cons_append, List.nil_append,
    readEntries?_entry assigns written added read, skipBlanks_append blank, brace]

theorem entry {after : Entries} {others : List Char}
    (othersReads : Reads depth (.entries middle after) others) :
    Reads depth (.entries before after) (assignee ++ (text ++ (blanks ++ ',' :: others))) := by
  intro fuel rest enough
  obtain ⟨fuel, rfl⟩ := Nat.exists_eq_add_one.mpr (Nat.zero_lt_of_lt enough)
  simp only [List.length_append, List.length_cons] at enough
  have closed : EndsValue (blanks ++ ',' :: (others ++ rest)) :=
    blank.endsValue (endsValue_cons (by decide) _)
  have read := reads fuel _ (by omega) closed
  have comma : skipBlanks (',' :: (others ++ rest)) = ',' :: (others ++ rest) := rfl
  have readOthers := othersReads fuel rest (by omega)
  simp only [List.append_assoc, List.cons_append,
    readEntries?_entry assigns written added read, skipBlanks_append blank, comma, readOthers]

end Entries

end Reads

/-- What is written by the grammar is read, with fuel for each of its characters. -/
theorem Lexicon.Written.reads {depth : Nat} {meaning : Meaning} {text : List Char}
    (written : lexicon.Written depth meaning text) : Reads depth meaning text := by
  induction written with
  | scalar spelled => exact .scalar spelled
  | array fills listed ih => exact .array fills listed ih
  | emptyBraces blank => exact .emptyBraces blank
  | braces blank listed ih => exact .braces blank listed ih
  | noItems => exact .noItems
  | lastItem written fills ih => exact .lastItem written ih fills
  | item written fillsBefore fillsAfter later ih othersIH =>
      exact .item written ih fillsBefore fillsAfter later othersIH
  | lastEntry assigns written added blank ih => exact .lastEntry assigns written ih added blank
  | entry assigns written added blank _ ih othersIH =>
      exact .entry assigns written ih added blank othersIH

/-- What the readers accept with this much fuel is written by the grammar. -/
structure Sound (fuel : Nat) : Prop where
  value : ∀ {depth : Nat} {chars rest : List Char} {value : Value},
    readValue? depth fuel chars = some (value, rest) → EndsValue rest →
      ∃ text, lexicon.Written depth (.value value) text ∧ chars = text ++ rest
  items : ∀ {depth : Nat} {chars rest : List Char} {items : List Value},
    readItems? depth fuel chars = some (items, rest) →
      ∃ text, lexicon.Written depth (.items items) text ∧ chars = text ++ rest
  entries : ∀ {depth : Nat} {before after : Entries} {chars rest : List Char},
    readEntries? depth before fuel chars = some (after, rest) →
      ∃ text, lexicon.Written depth (.entries before after) text ∧ chars = text ++ rest

/-- Filler up to a sign that closes what a value stands in. -/
theorem exists_filler_cons {chars rest : List Char} {character : Char}
    (closes : character ∈ [',', ']']) (passed : skipFiller false chars = character :: rest) :
    ∃ filler, Filler false filler ∧ chars = filler ++ character :: rest ∧ EndsValue chars := by
  simp only [List.mem_cons, List.not_mem_nil, or_false] at closes
  have solid : Solid (character :: rest) := by
    refine ⟨character, rest, rfl, ?_⟩
    cases closes with
    | inl same | inr same => subst same; decide
  have ends : EndsValue (character :: rest) := by
    refine endsValue_cons ?_ rest
    cases closes with
    | inl same | inr same => subst same; decide
  obtain ⟨filler, fills, rfl⟩ := exists_filler solid passed
  exact ⟨filler, fills, rfl, fills.endsValue rfl ends⟩

theorem exists_blanks_cons {chars rest : List Char} {character : Char}
    (closes : character ∈ closers) (passed : skipBlanks chars = character :: rest) :
    ∃ blanks, Blanks blanks ∧ chars = blanks ++ character :: rest ∧ EndsValue chars := by
  obtain ⟨blanks, blank, whole⟩ := exists_blanks chars
  rw [passed] at whole
  exact ⟨blanks, blank, whole, whole ▸ blank.endsValue (endsValue_cons closes rest)⟩

namespace Sound

variable {fuel depth : Nat} {chars rest : List Char} (shorter : Sound fuel)

include shorter

theorem value_succ {value : Value} (found : readValue? depth (fuel + 1) chars = some (value, rest))
    (ends : EndsValue rest) :
    ∃ text, lexicon.Written depth (.value value) text ∧ chars = text ++ rest := by
  have deeper : ∀ {passed : Unit}, (guard (depth ≠ 0) : Option Unit) = some passed →
      ∃ less, depth = less + 1 := by
    intro passed allowed
    cases depth with
    | zero => cases allowed
    | succ less => exact ⟨less, rfl⟩
  unfold readValue? at found
  split at found
  · rename_i behind
    obtain ⟨_, allowed, found⟩ := Option.bind_eq_some_iff.mp found
    obtain ⟨⟨items, left⟩, listed, made⟩ := Option.bind_eq_some_iff.mp found
    cases made
    obtain ⟨less, rfl⟩ := deeper allowed
    obtain ⟨text, written, passed⟩ := shorter.items listed
    obtain ⟨filler, fills, rfl⟩ := exists_filler (written.solid_items _) passed
    exact ⟨_, .array fills written, by simp⟩
  · rename_i behind
    obtain ⟨_, allowed, found⟩ := Option.bind_eq_some_iff.mp found
    obtain ⟨less, rfl⟩ := deeper allowed
    obtain ⟨blanks, blank, whole⟩ := exists_blanks behind
    split at found
    · rename_i closed
      cases found
      rw [closed] at whole
      exact ⟨_, .emptyBraces blank, by simp [whole]⟩
    · obtain ⟨⟨entries, left⟩, listed, made⟩ := Option.bind_eq_some_iff.mp found
      cases made
      obtain ⟨text, written, passed⟩ := shorter.entries listed
      rw [passed] at whole
      exact ⟨_, .braces blank written, by simp [whole]⟩
  · obtain ⟨character, spelling, _, rfl, spelled⟩ := exists_scalar found ends
    exact ⟨_, .scalar spelled, rfl⟩

theorem items_succ {items : List Value}
    (found : readItems? depth (fuel + 1) chars = some (items, rest)) :
    ∃ text, lexicon.Written depth (.items items) text ∧ chars = text ++ rest := by
  unfold readItems? at found
  split at found
  · cases found
    exact ⟨_, .noItems, rfl⟩
  · obtain ⟨⟨item, behind⟩, read, found⟩ := Option.bind_eq_some_iff.mp found
    simp only at found
    split at found
    · rename_i passed
      cases found
      obtain ⟨filler, fills, rfl, ends⟩ := exists_filler_cons (by decide) passed
      obtain ⟨text, written, rfl⟩ := shorter.value read ends
      exact ⟨_, .lastItem written fills, by simp⟩
    · rename_i passed
      obtain ⟨⟨others, left⟩, listed, made⟩ := Option.bind_eq_some_iff.mp found
      cases made
      obtain ⟨before, fillsBefore, rfl, ends⟩ := exists_filler_cons (by decide) passed
      obtain ⟨text, written, rfl⟩ := shorter.value read ends
      obtain ⟨othersText, later, resumed⟩ := shorter.items listed
      obtain ⟨after, fillsAfter, rfl⟩ := exists_filler (later.solid_items _) resumed
      exact ⟨_, .item written fillsBefore fillsAfter later, by simp⟩
    · cases found

theorem entries_succ {before after : Entries}
    (found : readEntries? depth before (fuel + 1) chars = some (after, rest)) :
    ∃ text, lexicon.Written depth (.entries before after) text ∧ chars = text ++ rest := by
  simp only [readEntries?, Option.bind_eq_bind, Option.bind_eq_some_iff] at found
  obtain ⟨⟨path, value⟩, assigned, ⟨item, behind⟩, read, middle, added, found⟩ := found
  obtain ⟨assignee, assigns, rfl⟩ := exists_assignee assigned
  split at found
  · rename_i passed
    cases found
    obtain ⟨blanks, blank, rfl, ends⟩ := exists_blanks_cons (by decide) passed
    obtain ⟨text, written, rfl⟩ := shorter.value read ends
    exact ⟨_, .lastEntry assigns written added blank, by simp⟩
  · rename_i passed
    obtain ⟨blanks, blank, rfl, ends⟩ := exists_blanks_cons (by decide) passed
    obtain ⟨text, written, rfl⟩ := shorter.value read ends
    obtain ⟨others, later, rfl⟩ := shorter.entries found
    exact ⟨_, .entry assigns written added blank later, by simp⟩
  · cases found

end Sound

theorem sound (fuel : Nat) : Sound fuel := by
  induction fuel with
  | zero => exact ⟨nofun, nofun, nofun⟩
  | succ fuel shorter => exact ⟨shorter.value_succ, shorter.items_succ, shorter.entries_succ⟩

end SemanticHighlight.Toml
