import SemanticHighlight.Proofs.Toml.Steady
import SemanticHighlight.Toml.Moment

/-!
# Dates and times are read steadily

A date may be parted from its time by a blank. Blanks behind a value are not taken for that one,
since no digit is the first visible character behind them.
-/

set_option autoImplicit false

namespace SemanticHighlight.Toml

theorem isDigit_apart : valueEnds.any Char.isDigit = false := by
  decide

theorem steady_readFixed (count : Nat) : Steady (readFixed? count) where
  behind {chars result} found := by
    simp only [readFixed?] at found
    split at found
    · cases found
      exact List.drop_suffix ..
    · cases found
  append {rest} ends chars := by
    by_cases room : count ≤ chars.length
    · simp only [readFixed?, List.take_append_of_le_length room, List.drop_append_of_le_length room]
      split <;> rfl
    · have refused : readFixed? count chars = none := by
        simp only [readFixed?, List.length_take]
        rw [if_neg]
        omega
      rw [refused]
      -- Beyond `chars` the digits would have to go on in the text behind.
      cases rest with
      | nil => simpa using refused
      | cons character rest =>
          simp only [readFixed?]
          rw [if_neg]
          · rfl
          · intro both
            obtain ⟨more, sum⟩ : ∃ more, count - chars.length = more + 1 :=
              Nat.exists_eq_add_one.mpr (by omega)
            have member : character ∈ (chars ++ character :: rest).take count := by
              simp [List.take_append, sum]
            have digit := List.all_eq_true.mp both.2 character member
            simp [ends.untested isDigit_apart] at digit

theorem steady_pass {expected : Char} (apart : expected ∉ valueEnds) : Steady (pass? expected) := by
  have reads : pass? expected =
      byFirst (fun character => decide (character = expected)) (fun _ chars => some chars)
        (fun _ => none) := by
    funext chars
    cases chars <;> simp [pass?, byFirst]
  rw [reads]
  refine .byFirst (List.any_eq_false.mpr ?_) (fun _ => .stay) .refuse
  intro character member tested
  exact apart (of_decide_eq_true tested ▸ member)

theorem steady_dropWhile {test : Char → Bool} (apart : valueEnds.any test = false) :
    Steady fun chars => some (chars.dropWhile test) where
  behind found := by
    cases found
    exact List.dropWhile_suffix ..
  append {rest} ends chars := by
    have still : rest.dropWhile test = rest := by
      cases rest with
      | nil => rfl
      | cons character rest => simp [ends.untested apart]
    simp only [Option.map_some, Option.some.injEq]
    induction chars with
    | nil => exact still
    | cons character chars ih =>
        by_cases tested : test character = true <;> simp [tested, ih, extend]

theorem steady_passDate : Steady passDate? := by
  have two : Steady (readFixed? 2) := steady_readFixed 2
  have dash : Steady (pass? '-') := steady_pass (by decide)
  exact (steady_readFixed 4).bind fun year => dash.pass (two.bind fun month =>
    .guarded (1 ≤ month ∧ month ≤ 12) (dash.pass (two.bind fun day =>
      .guarded (1 ≤ day ∧ day ≤ daysIn year month) .stay)))

theorem steady_passHourMinute : Steady passHourMinute? := by
  have two : Steady (readFixed? 2) := steady_readFixed 2
  have colon : Steady (pass? ':') := steady_pass (by decide)
  exact two.bind fun hour => .guarded (hour ≤ 23)
    (colon.pass (two.bind fun minute => .guarded (minute ≤ 59) .stay))

/-- Passes digits, of which there has to be one. -/
def passDigits? : List Char → Option (List Char) :=
  byFirst Char.isDigit (fun _ rest => some (rest.dropWhile Char.isDigit)) fun _ => none

theorem steady_passDigits : Steady passDigits? :=
  .byFirst isDigit_apart (fun _ => steady_dropWhile isDigit_apart) .refuse

theorem steady_skipSecondFraction : Steady fun chars => some (skipSecondFraction chars) := by
  have reads : (fun chars => some (skipSecondFraction chars)) = fun chars =>
      (pass? '.' chars).bind passDigits? <|> some chars := by
    funext chars
    unfold skipSecondFraction
    split
    · rename_i digit rest
      by_cases counts : digit.isDigit = true <;> simp [pass?, passDigits?, byFirst, counts]
    · rename_i other
      cases chars with
      | nil => rfl
      | cons character chars =>
          by_cases point : character = '.'
          · subst point
            cases chars with
            | nil => rfl
            | cons digit chars => exact (other digit chars rfl).elim
          · simp [pass?, point]
  rw [reads]
  exact ((steady_pass (by decide)).pass steady_passDigits).orElse .stay

theorem steady_passTime : Steady passTime? := by
  have colon : Steady (pass? ':') := steady_pass (by decide)
  exact steady_passHourMinute.pass (colon.pass ((steady_readFixed 2).bind fun second =>
    .guarded (second ≤ 60) steady_skipSecondFraction))

theorem steady_skipOffset : Steady fun chars => some (skipOffset chars) := by
  have signed : Steady (byFirst (fun mark => decide (mark = '+' ∨ mark = '-'))
      (fun _ => passHourMinute?) fun _ => none) :=
    .byFirst (by decide) (fun _ => steady_passHourMinute) .refuse
  have reads : (fun chars => some (skipOffset chars)) =
      byFirst (fun mark => decide (mark = 'Z' ∨ mark = 'z')) (fun _ rest => some rest)
        (fun chars => byFirst (fun mark => decide (mark = '+' ∨ mark = '-'))
          (fun _ => passHourMinute?) (fun _ => none) chars <|> some chars) := by
    funext chars
    cases chars with
    | nil => rfl
    | cons mark rest =>
        simp only [skipOffset, byFirst, decide_eq_true_eq]
        split
        · rfl
        · split
          · cases passHourMinute? rest <;> rfl
          · rfl
  rw [reads]
  exact .byFirst (by decide) (fun _ => .stay) (signed.orElse .stay)

/-- Passes a time behind a date, which may stand apart from the date by a blank. -/
def passTimeOfDate? : List Char → Option (List Char) :=
  byFirst (fun mark => decide (mark = 'T' ∨ mark = 't' ∨ mark = ' '))
    (fun _ rest => (passTime? rest).bind fun rest => some (skipOffset rest)) fun _ => none

theorem steady_passTimeOfDate : Steady passTimeOfDate? where
  behind {chars result} found := by
    cases chars with
    | nil => cases found
    | cons mark chars =>
        simp only [passTimeOfDate?, byFirst] at found
        split at found
        · exact ((steady_passTime.pass steady_skipOffset).behind found).trans (List.suffix_cons ..)
        · cases found
  append {rest} ends chars := by
    have time := steady_passTime.pass steady_skipOffset
    cases chars with
    | nil =>
        cases rest with
        | nil => rfl
        | cons mark rest =>
            by_cases blank : mark = ' '
            · subst blank
              -- No time begins behind the blank, for what is visible there ends the value.
              have refused : passTime? rest = none :=
                steady_passTime.append (ends.tail (by decide)) []
              simp [passTimeOfDate?, byFirst, refused]
            · have noMark : mark ≠ 'T' ∧ mark ≠ 't' := by
                constructor <;> rintro rfl <;> exact absurd ends.head (by decide)
              simp [passTimeOfDate?, byFirst, noMark, blank]
    | cons mark chars =>
        simp only [passTimeOfDate?, byFirst, List.cons_append]
        split
        · exact time.append ends chars
        · rfl

theorem steady_skipTimeOfDate : Steady fun chars => some (skipTimeOfDate chars) := by
  have reads : (fun chars => some (skipTimeOfDate chars)) = fun chars =>
      passTimeOfDate? chars <|> some chars := by
    funext chars
    cases chars with
    | nil => rfl
    | cons mark rest =>
        simp only [skipTimeOfDate, passTimeOfDate?, byFirst, decide_eq_true_eq]
        split
        · cases passTime? rest <;> rfl
        · rfl
  rw [reads]
  exact steady_passTimeOfDate.orElse .stay

theorem steady_readMoment : Steady readMoment? := by
  have reads : readMoment? = fun chars =>
      ((passDate? chars).bind fun rest =>
        (some (skipTimeOfDate rest)).bind fun rest => some (Value.moment, rest)) <|>
      (passTime? chars).bind fun rest => some (Value.moment, rest) := by
    funext chars
    unfold readMoment?
    cases passDate? chars with
    | some rest => rfl
    | none => cases passTime? chars <;> rfl
  rw [reads]
  have moment : Steady fun chars => some (Value.moment, chars) := .give Value.moment
  have dated := steady_passDate.pass (steady_skipTimeOfDate.pass moment)
  exact dated.orElse (steady_passTime.pass moment)

end SemanticHighlight.Toml
