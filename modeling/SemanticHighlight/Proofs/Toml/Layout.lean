import SemanticHighlight.Toml.Blank

/-!
# Layout

What a text may hold besides its keys, values and headers: blanks, comments and the ends of lines.
Each kind of layout is told from its characters alone, and the functions that pass layout are shown
to pass just that.
-/

set_option autoImplicit false

namespace SemanticHighlight.Toml

/-! ## Kinds of layout -/

def Blanks (chars : List Char) : Prop :=
  ∀ character ∈ chars, isBlank character = true

def Printable (chars : List Char) : Prop :=
  ∀ character ∈ chars, isPrintable character = true

inductive LineBreak : List Char → Prop where
  | plain : LineBreak ['\n']
  | withReturn : LineBreak ['\r', '\n']

/-- A comment, or none. -/
inductive Remark : List Char → Prop where
  | none : Remark []
  | words {words : List Char} (printable : Printable words) : Remark ('#' :: words)

/-- What stands between the last visible character of a line and `rest`. Only the last line of a
text may go without a line break. -/
inductive LineEnd (rest : List Char) : List Char → Prop where
  | broken {blanks remark ending : List Char} (blank : Blanks blanks) (remarked : Remark remark)
      (ended : LineBreak ending) : LineEnd rest (blanks ++ (remark ++ ending))
  | last {blanks remark : List Char} (blank : Blanks blanks) (remarked : Remark remark)
      (atEnd : rest = []) : LineEnd rest (blanks ++ remark)

/-- What may stand around the items of an array, seen from inside or outside a comment. -/
inductive Filler : Bool → List Char → Prop where
  | nil : Filler false []
  | blank {character : Char} {filler : List Char} (blank : isBlank character = true)
      (later : Filler false filler) : Filler false (character :: filler)
  | remark {filler : List Char} (later : Filler true filler) : Filler false ('#' :: filler)
  | word {character : Char} {filler : List Char} (printable : isPrintable character = true)
      (later : Filler true filler) : Filler true (character :: filler)
  | broken {inComment : Bool} {ending filler : List Char} (ended : LineBreak ending)
      (later : Filler false filler) : Filler inComment (ending ++ filler)

/-! ## Blanks -/

theorem skipBlanks_append {blanks : List Char} (blank : Blanks blanks) (chars : List Char) :
    skipBlanks (blanks ++ chars) = skipBlanks chars :=
  List.dropWhile_append_of_pos blank

theorem skipBlanks_of_head {chars : List Char}
    (visible : ∀ character, chars.head? = some character → isBlank character = false) :
    skipBlanks chars = chars := by
  cases chars with
  | nil => rfl
  | cons character chars => simp [skipBlanks, visible character rfl]

/-- The blanks that a text begins with. -/
theorem exists_blanks (chars : List Char) :
    ∃ blanks, Blanks blanks ∧ chars = blanks ++ skipBlanks chars := by
  exact ⟨chars.takeWhile isBlank, List.all_eq_true.mp List.all_takeWhile,
    List.takeWhile_append_dropWhile.symm⟩

theorem head?_skipBlanks {chars : List Char} {character : Char}
    (first : (skipBlanks chars).head? = some character) : isBlank character = false := by
  have visible := List.head?_dropWhile_not isBlank chars
  unfold skipBlanks at first
  simpa [first] using visible

theorem skipBlanks_skipBlanks (chars : List Char) :
    skipBlanks (skipBlanks chars) = skipBlanks chars :=
  skipBlanks_of_head fun _ => head?_skipBlanks

/-! ## Ends of lines -/

theorem passNewline?_eq_some_iff {chars rest : List Char} :
    passNewline? chars = some rest ↔ ∃ ending, LineBreak ending ∧ chars = ending ++ rest := by
  constructor
  · intro passed
    unfold passNewline? at passed
    split at passed
    · cases passed
      exact ⟨_, .plain, rfl⟩
    · cases passed
      exact ⟨_, .withReturn, rfl⟩
    · cases passed
  · intro shape
    obtain ⟨ending, ended, whole⟩ := shape
    subst whole
    cases ended <;> rfl

theorem LineBreak.head {ending : List Char} (ended : LineBreak ending) :
    ∃ character tail, ending = character :: tail ∧ isBlank character = false ∧
      isPrintable character = false ∧ character ≠ '#' := by
  cases ended with
  | plain => exact ⟨_, _, rfl, by decide⟩
  | withReturn => exact ⟨_, _, rfl, by decide⟩

theorem LineBreak.dropWhile_append {ending : List Char} (ended : LineBreak ending)
    (rest : List Char) : (ending ++ rest).dropWhile isPrintable = ending ++ rest := by
  obtain ⟨character, tail, rfl, _, hidden, _⟩ := ended.head
  simp [hidden]

section Remark

variable {remark ending : List Char} (remarked : Remark remark)

include remarked

theorem skipBlanks_remark : skipBlanks remark = remark := by
  apply skipBlanks_of_head
  intro character first
  cases remarked with
  | none => cases first
  | words =>
      cases first
      decide

theorem skipComment_remark : skipComment remark = [] := by
  cases remarked with
  | none => rfl
  | @words words printable =>
      have all : (words ++ []).dropWhile isPrintable = [] := List.dropWhile_append_of_pos printable
      rwa [List.append_nil] at all

variable (ended : LineBreak ending) (rest : List Char)

include ended

theorem skipBlanks_remark_append :
    skipBlanks (remark ++ (ending ++ rest)) = remark ++ (ending ++ rest) := by
  apply skipBlanks_of_head
  intro character first
  cases remarked with
  | none =>
      obtain ⟨_, tail, rfl, visible, _⟩ := ended.head
      cases first
      exact visible
  | words =>
      cases first
      decide

theorem skipComment_remark_append : skipComment (remark ++ (ending ++ rest)) = ending ++ rest := by
  cases remarked with
  | none =>
      obtain ⟨character, tail, rfl, _, _, apart⟩ := ended.head
      simp [skipComment, apart]
  | words printable =>
      simp only [List.cons_append, skipComment, List.dropWhile_append_of_pos printable,
        ended.dropWhile_append]

end Remark

/-- The comment that a text begins with, or none. -/
theorem exists_remark (chars : List Char) :
    ∃ remark, Remark remark ∧ chars = remark ++ skipComment chars := by
  unfold skipComment
  split
  · rename_i rest
    exact ⟨_, .words (List.all_eq_true.mp List.all_takeWhile),
      congrArg ('#' :: ·) List.takeWhile_append_dropWhile.symm⟩
  · exact ⟨[], .none, rfl⟩

theorem passLineEnd?_eq_some_iff {chars rest : List Char} :
    passLineEnd? chars = some rest ↔ ∃ ending, LineEnd rest ending ∧ chars = ending ++ rest := by
  constructor
  · intro passed
    obtain ⟨blanks, blank, whole⟩ := exists_blanks chars
    obtain ⟨remark, remarked, visible⟩ := exists_remark (skipBlanks chars)
    unfold passLineEnd? at passed
    split at passed
    · rename_i atEnd
      cases passed
      rw [atEnd, List.append_nil] at visible
      exact ⟨_, .last blank remarked rfl, by rw [List.append_nil, ← visible, ← whole]⟩
    · obtain ⟨ending, ended, broken⟩ := passNewline?_eq_some_iff.mp passed
      refine ⟨_, .broken blank remarked ended, ?_⟩
      rw [List.append_assoc, List.append_assoc, ← broken, ← visible, ← whole]
  · intro shape
    obtain ⟨_, lineEnd, rfl⟩ := shape
    cases lineEnd with
    | @broken blanks remark ending blank remarked ended =>
        have passed : passNewline? (ending ++ rest) = some rest :=
          passNewline?_eq_some_iff.mpr ⟨ending, ended, rfl⟩
        simp only [passLineEnd?, List.append_assoc, skipBlanks_append blank,
          skipBlanks_remark_append remarked ended, skipComment_remark_append remarked ended]
        obtain ⟨character, tail, rfl, _⟩ := ended.head
        exact passed
    | last blank remarked atEnd =>
        subst atEnd
        simp only [passLineEnd?, List.append_nil, skipBlanks_append blank,
          skipBlanks_remark remarked, skipComment_remark remarked]

/-! ## Filler -/

/-- A text that begins with something other than filler. -/
def Solid (chars : List Char) : Prop :=
  ∃ character tail, chars = character :: tail ∧ isBlank character = false ∧
    isPrintable character = true ∧ character ≠ '#'

theorem isPrintable_of_isBlank {character : Char} (blank : isBlank character = true) :
    isPrintable character = true := by
  simp only [isBlank, Bool.or_eq_true, beq_iff_eq] at blank
  cases blank with
  | inl same | inr same => subst same; decide

/-- What is done with a character that begins no line break. -/
theorem skipFiller_cons {character : Char} (printable : isPrintable character = true)
    (inComment : Bool) (rest : List Char) :
    skipFiller inComment (character :: rest) =
      if inComment = true ∨ character = '#' then skipFiller true rest
      else if isBlank character then skipFiller false rest
      else character :: rest := by
  have noBreak : character ≠ '\n' := by
    intro same
    subst same
    exact absurd printable (by decide)
  have noReturn : character ≠ '\r' := by
    intro same
    subst same
    exact absurd printable (by decide)
  rw [skipFiller.eq_4 inComment character rest noBreak fun _ same => absurd same noReturn]
  by_cases hash : character = '#'
  · subst hash
    have visible : isBlank '#' = false := by decide
    simp [printable, visible]
  · simp [printable, hash]

theorem skipFiller_of_solid {chars : List Char} (solid : Solid chars) :
    skipFiller false chars = chars := by
  obtain ⟨character, tail, rfl, visible, printable, apart⟩ := solid
  simp [skipFiller_cons printable, visible, apart]

theorem skipFiller_append {inComment : Bool} {filler rest : List Char}
    (fills : Filler inComment filler) (solid : Solid rest) :
    skipFiller inComment (filler ++ rest) = rest := by
  induction fills with
  | nil => exact skipFiller_of_solid solid
  | @blank character filler blank _ ih =>
      have noRemark : character ≠ '#' := by
        intro same
        subst same
        exact absurd blank (by decide)
      simp only [List.cons_append, skipFiller_cons (isPrintable_of_isBlank blank), blank, noRemark,
        Bool.false_eq_true, or_self, ↓reduceIte, ih]
  | remark _ ih =>
      have hash : isPrintable '#' = true := by decide
      simp only [List.cons_append, skipFiller_cons hash, or_true, ↓reduceIte, ih]
  | word printable _ ih =>
      simp only [List.cons_append, skipFiller_cons printable, true_or, ↓reduceIte, ih]
  | broken ended _ ih => cases ended <;> simpa [skipFiller] using ih

/-- What is passed up to something else is filler. -/
theorem exists_filler {inComment : Bool} {chars rest : List Char} (solid : Solid rest)
    (passed : skipFiller inComment chars = rest) :
    ∃ filler, Filler inComment filler ∧ chars = filler ++ rest := by
  fun_induction skipFiller inComment chars with
  | case1 =>
      obtain ⟨_, _, absent, _⟩ := solid
      simp [← passed] at absent
  | case2 inComment chars ih =>
      obtain ⟨filler, fills, rfl⟩ := ih passed
      exact ⟨_, .broken .plain fills, rfl⟩
  | case3 inComment chars ih =>
      obtain ⟨filler, fills, rfl⟩ := ih passed
      exact ⟨_, .broken .withReturn fills, rfl⟩
  | case4 character chars _ _ printable ih =>
      obtain ⟨filler, fills, rfl⟩ := ih passed
      exact ⟨_, .word printable fills, rfl⟩
  | case5 character chars _ _ hidden =>
      obtain ⟨_, _, whole, _, printable, _⟩ := solid
      rw [← passed] at whole
      cases whole
      exact absurd printable hidden
  | case6 inComment character chars _ _ outside blank ih =>
      obtain ⟨filler, fills, rfl⟩ := ih passed
      cases Bool.eq_false_iff.mpr outside
      exact ⟨_, .blank blank fills, rfl⟩
  | case7 inComment chars outside _ _ _ ih =>
      obtain ⟨filler, fills, rfl⟩ := ih passed
      cases Bool.eq_false_iff.mpr outside
      exact ⟨_, .remark fills, rfl⟩
  | case8 inComment character chars _ _ outside =>
      cases Bool.eq_false_iff.mpr outside
      exact ⟨[], .nil, passed⟩

end SemanticHighlight.Toml
