import SemanticHighlight.Json.Reader
import SemanticHighlight.Json.Writer
import SemanticHighlight.Proofs.Json.Text

/-!
# Written values are read back

A value whose numbers are all integers is read back from the text it is written as. Behind a
written value comes the end, a comma, or the end of the list that it stands in, so that a number is
never read on into what follows. The length of what is written pays for all the fuel of reading it.
-/

set_option autoImplicit false

namespace SemanticHighlight.Json

/-- What may follow a written value. -/
def EndsValue (rest : List Char) : Prop :=
  ∀ mark ∈ rest.head?, mark = ',' ∨ mark = ']' ∨ mark = '\x7d'

@[simp] theorem endsValue_nil : EndsValue [] :=
  fun _ found => nomatch found

@[simp] theorem endsValue_cons {mark : Char} {rest : List Char} :
    EndsValue (mark :: rest) ↔ mark = ',' ∨ mark = ']' ∨ mark = '\x7d' := by
  simp [EndsValue]

/-! ## Integers -/

section Integers

variable (value : Nat) {rest : List Char}

theorem head?_toDigits {value : Nat} (positive : 0 < value) :
    (Nat.toDigits 10 value).head? ≠ some '0' := by
  induction value using Nat.strongRecOn with
  | ind value ih =>
      rw [Nat.toDigits_eq_if (by decide)]
      split
      next small =>
        have otherDigits : ∀ digit < 10, 0 < digit → [digit.digitChar].head? ≠ some '0' := by decide
        exact otherDigits value small positive
      next large =>
        -- All digits but the last are those of the tenth part, which is not zero either.
        have first := ih (value / 10) (by omega) (by omega)
        rw [List.head?_append, Option.or_of_isSome]
        · exact first
        · exact List.isSome_head?.mpr Nat.toDigits_ne_nil

theorem readDigits?_toDigits (ends : EndsValue rest) :
    readDigits? (Nat.toDigits 10 value ++ rest) = some (Nat.toDigits 10 value, rest) := by
  have noDigits : rest.takeWhile Char.isDigit = [] ∧ rest.dropWhile Char.isDigit = rest := by
    cases rest with
    | nil => exact ⟨rfl, rfl⟩
    | cons mark later => rcases endsValue_cons.mp ends with rfl | rfl | rfl <;> exact ⟨rfl, rfl⟩
  have digits : ∀ digit ∈ Nat.toDigits 10 value, digit.isDigit = true :=
    fun _ => Nat.isDigit_of_mem_toDigits (by decide) (by decide)
  rw [readDigits?, List.takeWhile_append_of_pos digits, List.dropWhile_append_of_pos digits,
    noDigits.1, noDigits.2, List.append_nil]
  simp [Nat.toDigits_ne_nil]

theorem readInteger?_toDigits (ends : EndsValue rest) :
    readInteger? (Nat.toDigits 10 value ++ rest) = some (Nat.toDigits 10 value, rest) := by
  have noNeedlessZero : (Nat.toDigits 10 value).head? ≠ some '0' ∨
      Nat.toDigits 10 value = ['0'] := by
    rcases Nat.eq_zero_or_pos value with rfl | positive
    · exact .inr rfl
    · exact .inl (head?_toDigits positive)
  have admitted : (guard ((Nat.toDigits 10 value).head? ≠ some '0' ∨
      Nat.toDigits 10 value = ['0']) : Option Unit) = some () := if_pos noNeedlessZero
  rw [readInteger?, readDigits?_toDigits value ends]
  exact congrArg (Option.bind · _) admitted

theorem readFraction?_of_endsValue (ends : EndsValue rest) :
    readFraction? rest = some ([], rest) := by
  cases rest with
  | nil => rfl
  | cons mark later => rcases endsValue_cons.mp ends with rfl | rfl | rfl <;> rfl

theorem readExponent?_of_endsValue (ends : EndsValue rest) :
    readExponent? rest = some ([], rest) := by
  cases rest with
  | nil => rfl
  | cons mark later => rcases endsValue_cons.mp ends with rfl | rfl | rfl <;> rfl

theorem readUnsigned?_toDigits (ends : EndsValue rest) :
    readUnsigned? (Nat.toDigits 10 value ++ rest) = some (.natural value, rest) := by
  simp [readUnsigned?, readInteger?_toDigits value ends, readFraction?_of_endsValue ends,
    readExponent?_of_endsValue ends, Nat.ofDigitChars_toDigits]

end Integers

theorem readValue?_of_digit {digit : Char} {later : List Char} (fuel : Nat)
    (isDigit : digit.isDigit = true) :
    readValue? (fuel + 1) (digit :: later) = readUnsigned? (digit :: later) := by
  rw [readValue?, readNumber?]
  all_goals
    rintro _ ⟨⟩
    exact absurd isDigit (by decide)

theorem isBlank_of_digit {digit : Char} (isDigit : digit.isDigit = true) :
    isBlank digit = false := by
  simp only [isBlank, Bool.or_eq_false_iff, beq_eq_false_iff_ne]
  refine ⟨⟨⟨?_, ?_⟩, ?_⟩, ?_⟩ <;> rintro rfl <;> cases isDigit

/-! ## Values -/

/-- A value is written so that the reader gives it back, whatever may follow it. -/
structure ReadsBack (value : Value) : Prop where
  /-- Neither a blank nor the end of a list stands in front, where an item is looked for. -/
  opens : ∃ first later, writeValue value = first :: later ∧ isBlank first = false ∧ first ≠ ']'
  reads : ∀ fuel rest, (writeValue value).length ≤ fuel → EndsValue rest →
    readValue? (fuel + 1) (writeValue value ++ rest) = some (value, rest)

theorem ReadsBack.skipBlanks_append {value : Value} (back : ReadsBack value) (rest : List Char) :
    skipBlanks (writeValue value ++ rest) = writeValue value ++ rest := by
  obtain ⟨first, later, written, notBlank, -⟩ := back.opens
  simp [written, skipBlanks, notBlank]

theorem readsBack_null : ReadsBack .null where
  opens := ⟨_, _, rfl, by decide, by decide⟩
  reads _ _ _ _ := rfl

theorem readsBack_boolean (value : Bool) : ReadsBack (.boolean value) where
  opens := by cases value <;> exact ⟨_, _, rfl, by decide, by decide⟩
  reads _ _ _ _ := by cases value <;> rfl

theorem readsBack_natural (value : Nat) : ReadsBack (.natural value) := by
  obtain ⟨digit, later, written⟩ := List.exists_cons_of_ne_nil
    (Nat.toDigits_ne_nil (n := value) (b := 10))
  have isDigit : digit.isDigit = true :=
    Nat.isDigit_of_mem_toDigits (by decide) (by decide) (written ▸ List.mem_cons_self)
  refine ⟨⟨digit, later, written, isBlank_of_digit isDigit, ?_⟩, fun fuel rest _ ends => ?_⟩
  · rintro rfl
    cases isDigit
  · rw [writeValue, ← readUnsigned?_toDigits value ends, written, List.cons_append,
      readValue?_of_digit fuel isDigit]

theorem readsBack_text (content : Content) : ReadsBack (.text content) := by
  obtain ⟨body, written, reads⟩ := exists_readText?_writeText content
  refine ⟨⟨_, _, written, by decide, by decide⟩, fun fuel rest _ _ => ?_⟩
  rw [writeValue, written, List.cons_append, readValue?, reads]
  rfl

/-! ## Arrays -/

section Arrays

variable {item : Value} {fuel : Nat}

theorem readItems?_last (back : ReadsBack item) (rest : List Char)
    (enough : (writeValue item).length ≤ fuel) :
    readItems? (fuel + 2) (writeValue item ++ ']' :: rest) = some ([item], rest) := by
  rw [readItems?, back.reads fuel (']' :: rest) enough (by simp)]
  rfl

theorem readItems?_next (back : ReadsBack item) (later : List Char)
    (enough : (writeValue item).length ≤ fuel) :
    readItems? (fuel + 2) (writeValue item ++ ',' :: later) =
      (readItems? (fuel + 1) (skipBlanks later)).map fun read => (item :: read.1, read.2) := by
  rw [readItems?, back.reads fuel (',' :: later) enough (by simp), Option.map_eq_bind]
  rfl

theorem readItems?_written {items : List Value} (back : ∀ each ∈ item :: items, ReadsBack each)
    (rest : List Char) (enough : (writeValue item).length + (writeItems items).length ≤ fuel) :
    readItems? (fuel + 2) (writeValue item ++ (writeItems items ++ ']' :: rest)) =
      some (item :: items, rest) := by
  have itemBack := back item List.mem_cons_self
  -- What stands behind an item decides whether the list goes on, which the two lemmas above say.
  induction items generalizing item fuel with
  | nil => exact readItems?_last itemBack rest (by omega)
  | cons next items ih =>
      have back : ∀ each ∈ next :: items, ReadsBack each :=
        fun each member => back each (List.mem_cons_of_mem item member)
      have nextBack := back next List.mem_cons_self
      simp only [writeItems, List.cons_append, List.length_cons, List.length_append] at enough
      obtain ⟨fuel, rfl⟩ : ∃ less, fuel = less + 1 := Nat.exists_eq_add_one.mpr (by omega)
      rw [writeItems, List.cons_append, List.cons_append, List.append_assoc,
        readItems?_next itemBack _ (by omega), nextBack.skipBlanks_append,
        ih back (by omega) nextBack]
      rfl

theorem readValue?_items (back : ReadsBack item) (later : List Char) :
    readValue? (fuel + 1) ('[' :: (writeValue item ++ later)) =
      (readItems? fuel (writeValue item ++ later)).map fun read => (.array read.1, read.2) := by
  obtain ⟨first, behind, written, -, notEnd⟩ := back.opens
  rw [readValue?, back.skipBlanks_append, written]
  split
  next heq => exact absurd (List.cons.inj heq).1 notEnd
  next => rfl

theorem readsBack_array {items : List Value} (back : ∀ each ∈ items, ReadsBack each) :
    ReadsBack (.array items) := by
  cases items with
  | nil => exact ⟨⟨_, _, rfl, by decide, by decide⟩, fun _ _ _ _ => rfl⟩
  | cons item items =>
      refine ⟨⟨_, _, rfl, by decide, by decide⟩, fun fuel rest enough _ => ?_⟩
      simp only [writeValue, List.cons_append, List.append_assoc, List.nil_append,
        List.length_cons, List.length_append, List.length_nil] at enough ⊢
      obtain ⟨fuel, rfl⟩ : ∃ less, fuel = less + 2 := Nat.exists_eq_add_of_le' (by omega)
      rw [readValue?_items (back item List.mem_cons_self), readItems?_written back rest (by omega)]
      rfl

end Arrays

/-! ## Objects -/

section Objects

variable {value : Value} (key : Content) {fuel : Nat}

theorem skipBlanks_writeText (later : List Char) :
    skipBlanks (writeText key ++ later) = writeText key ++ later := by
  obtain ⟨body, written, -⟩ := exists_readText?_writeText key
  rw [written]
  rfl

theorem readMembers?_last (back : ReadsBack value) (rest : List Char)
    (enough : (writeValue value).length ≤ fuel) :
    readMembers? (fuel + 2) (writeText key ++ ':' :: (writeValue value ++ '\x7d' :: rest)) =
      some ([(key, value)], rest) := by
  obtain ⟨body, written, reads⟩ := exists_readText?_writeText key
  rw [written, List.cons_append, readMembers?, reads]
  change (readValue? (fuel + 1) (skipBlanks (writeValue value ++ '\x7d' :: rest))).bind _ = _
  rw [back.skipBlanks_append, back.reads fuel ('\x7d' :: rest) enough (by simp)]
  rfl

theorem readMembers?_next (back : ReadsBack value) (later : List Char)
    (enough : (writeValue value).length ≤ fuel) :
    readMembers? (fuel + 2) (writeText key ++ ':' :: (writeValue value ++ ',' :: later)) =
      (readMembers? (fuel + 1) (skipBlanks later)).map
        fun read => ((key, value) :: read.1, read.2) := by
  obtain ⟨body, written, reads⟩ := exists_readText?_writeText key
  rw [written, List.cons_append, readMembers?, reads]
  change (readValue? (fuel + 1) (skipBlanks (writeValue value ++ ',' :: later))).bind _ = _
  rw [back.skipBlanks_append, back.reads fuel (',' :: later) enough (by simp), Option.map_eq_bind]
  rfl

theorem readValue?_members (later : List Char) :
    readValue? (fuel + 1) ('\x7b' :: (writeText key ++ later)) =
      (readMembers? fuel (writeText key ++ later)).map fun read => (.object read.1, read.2) := by
  obtain ⟨body, written, -⟩ := exists_readText?_writeText key
  rw [readValue?, skipBlanks_writeText, written]
  rfl

theorem readMembers?_written {members : List (Content × Value)}
    (back : ∀ each ∈ (key, value) :: members, ReadsBack each.2) (rest : List Char)
    (enough : (writeValue value).length + (writeMembers members).length ≤ fuel) :
    readMembers? (fuel + 2)
        (writeText key ++ ':' :: (writeValue value ++ (writeMembers members ++ '\x7d' :: rest))) =
      some ((key, value) :: members, rest) := by
  have valueBack : ReadsBack value := back (key, value) List.mem_cons_self
  induction members generalizing key value fuel with
  | nil => exact readMembers?_last key valueBack rest (by omega)
  | cons next members ih =>
      obtain ⟨nextKey, nextValue⟩ := next
      have back : ∀ each ∈ (nextKey, nextValue) :: members, ReadsBack each.2 :=
        fun each member => back each (List.mem_cons_of_mem (key, value) member)
      have nextBack : ReadsBack nextValue := back (nextKey, nextValue) List.mem_cons_self
      simp only [writeMembers, List.cons_append, List.append_assoc, List.length_cons,
        List.length_append] at enough ⊢
      obtain ⟨fuel, rfl⟩ : ∃ less, fuel = less + 1 := Nat.exists_eq_add_one.mpr (by omega)
      rw [readMembers?_next key valueBack _ (by omega), skipBlanks_writeText,
        ih nextKey back (by omega) nextBack]
      rfl

theorem readsBack_object {members : List (Content × Value)}
    (back : ∀ each ∈ members, ReadsBack each.2) : ReadsBack (.object members) := by
  cases members with
  | nil => exact ⟨⟨_, _, rfl, by decide, by decide⟩, fun _ _ _ _ => rfl⟩
  | cons member members =>
      obtain ⟨key, value⟩ := member
      refine ⟨⟨_, _, rfl, by decide, by decide⟩, fun fuel rest enough _ => ?_⟩
      simp only [writeValue, List.cons_append, List.append_assoc, List.nil_append,
        List.length_cons, List.length_append, List.length_nil] at enough ⊢
      obtain ⟨fuel, rfl⟩ : ∃ less, fuel = less + 2 := Nat.exists_eq_add_of_le' (by omega)
      rw [readValue?_members, readMembers?_written key back rest (by omega)]
      rfl

end Objects

/-! ## Whole texts -/

/-- Every number in the value is an integer of 64 bits, and every literal spells a text. -/
inductive Value.Plain : Value → Prop where
  | null : Plain .null
  | boolean {value : Bool} : Plain (.boolean value)
  | natural {value : Nat} (fits : value < UInt64.size) : Plain (.natural value)
  | text {content : String} : Plain (.ofString content)
  | array {items : List Value} (plain : ∀ item ∈ items, Plain item) : Plain (.array items)
  | record {members : List (String × Value)} (plain : ∀ member ∈ members, Plain member.2) :
      Plain (.record members)

theorem Value.Plain.readsBack {value : Value} (plain : value.Plain) : ReadsBack value := by
  induction plain with
  | null => exact readsBack_null
  | boolean => exact readsBack_boolean _
  | natural => exact readsBack_natural _
  | text => exact readsBack_text _
  | array _ ih => exact readsBack_array ih
  | record _ ih =>
      refine readsBack_object fun member listed => ?_
      obtain ⟨shown, inside, rfl⟩ := List.mem_map.mp listed
      exact ih shown inside

theorem parse?_render {value : Value} (plain : value.Plain) :
    parse? (render value) = some value := by
  have back := plain.readsBack
  have blank := back.skipBlanks_append []
  have read := back.reads (writeValue value).length [] (Nat.le_refl _) endsValue_nil
  rw [List.append_nil] at blank read
  rw [parse?, render, String.toList_ofList, blank, read]
  rfl

end SemanticHighlight.Json
