import SemanticHighlight.Proofs.Toml.Steady
import SemanticHighlight.Toml.Number

/-!
# Numbers are read steadily

No character that may follow a value goes on with a number: none is a digit, an underscore, a point
or the mark of an exponent.
-/

set_option autoImplicit false

namespace SemanticHighlight.Toml

theorem moreDigits_suffix (isDigit : Char → Bool) (chars : List Char) :
    (moreDigits isDigit chars).2 <:+ chars := by
  fun_induction moreDigits isDigit chars with
  | case1 => exact List.suffix_rfl
  | case2 digit chars _ digits rest read ih =>
      simp only [read] at ih
      exact (ih.trans (List.suffix_cons ..)).trans (List.suffix_cons ..)
  | case3 => exact List.suffix_rfl
  | case4 digit chars _ _ digits rest read ih =>
      simp only [read] at ih
      exact ih.trans (List.suffix_cons ..)
  | case5 => exact List.suffix_rfl

section Digits

variable {isDigit : Char → Bool} (apart : valueEnds.any isDigit = false)

include apart

theorem moreDigits_of_endsValue {rest : List Char} (ends : EndsValue rest) :
    moreDigits isDigit rest = ([], rest) := by
  cases rest with
  | nil => rfl
  | cons character rest =>
      have noMark : character ≠ '_' := by
        intro same
        subst same
        exact absurd ends.head (by decide)
      rw [moreDigits.eq_3 isDigit character rest fun _ _ same => absurd same noMark]
      simp [ends.untested apart]

variable (mark : isDigit '_' = false)

include mark

theorem moreDigits_append {rest : List Char} (ends : EndsValue rest) (chars : List Char) :
    moreDigits isDigit (chars ++ rest) =
      ((moreDigits isDigit chars).1, (moreDigits isDigit chars).2 ++ rest) := by
  fun_induction moreDigits isDigit chars with
  | case1 => exact moreDigits_of_endsValue apart ends
  | case2 digit chars counts digits left read ih =>
      simp only [read] at ih
      simp [moreDigits, counts, ih]
  | case3 digit chars other => simp [moreDigits, other]
  | case4 digit chars _ counts digits left read ih =>
      simp only [read] at ih
      have noMark : digit ≠ '_' := by
        intro same
        subst same
        simp [mark] at counts
      rw [List.cons_append, moreDigits.eq_3 _ _ _ fun _ _ same => absurd same noMark]
      simp [counts, ih]
  | case5 digit chars alone other =>
      by_cases isMark : digit = '_'
      · subst isMark
        have atEnd : chars = [] := by
          cases chars with
          | nil => rfl
          | cons digit chars => exact (alone digit chars rfl rfl).elim
        subst atEnd
        -- Only the text behind could give the mark a digit to part from.
        cases rest with
        | nil => simp [moreDigits, mark]
        | cons character rest => simp [moreDigits, ends.untested apart]
      · rw [List.cons_append, moreDigits.eq_3 _ _ _ fun _ _ same => absurd same isMark]
        simp [other]

theorem steady_moreDigits : Steady fun chars => some (moreDigits isDigit chars) where
  behind {chars result} found := by
    cases found
    exact moreDigits_suffix isDigit chars
  append {rest} ends chars := congrArg some (moreDigits_append apart mark ends chars)

theorem steady_readDigits : Steady (readDigits? isDigit) := by
  have more (first : Char) : Steady fun chars =>
      (some (moreDigits isDigit chars)).bind fun read => some (first :: read.1, read.2) :=
    (steady_moreDigits apart mark).bind fun digits => .give (first :: digits)
  have reads : readDigits? isDigit = byFirst isDigit
      (fun first chars =>
        (some (moreDigits isDigit chars)).bind fun read => some (first :: read.1, read.2))
      (fun _ => none) := by
    funext chars
    cases chars <;> rfl
  rw [reads]
  exact .byFirst apart more .refuse

end Digits

theorem steady_readWhole : Steady readWhole? := by
  have reads : readWhole? =
      byWord ['0'] (fun chars => some (['0'], chars)) (readDigits? Char.isDigit) := by
    funext chars
    unfold readWhole?
    split
    · rfl
    · rename_i other
      exact (byWord_of_other _ _ other).symm
  rw [reads]
  exact .byWord (by decide) (.give ['0']) (steady_readDigits (by decide) (by decide))

theorem steady_readSign : Steady fun chars => some (readSign chars) := by
  have reads : (fun chars => some (readSign chars)) =
      byWord ['+'] (fun chars => some (false, chars))
        (byWord ['-'] (fun chars => some (true, chars)) fun chars => some (false, chars)) := by
    funext chars
    unfold readSign
    split
    · rfl
    · rfl
    · rename_i noPlus noMinus
      rw [byWord_of_other _ _ noPlus, byWord_of_other _ _ noMinus]
  rw [reads]
  exact .byWord (by decide) (.give false) (.byWord (by decide) (.give true) (.give false))

theorem steady_readBased {base : Nat} (apart : valueEnds.any (isDigitOf base) = false)
    (mark : isDigitOf base '_' = false) : Steady (readBased? base) := by
  have value (digits : List Char) : Steady fun chars =>
      some (Value.integer (digitsValue base digits), chars) := .give _
  exact (steady_readDigits apart mark).bind fun digits =>
    .guarded (digitsValue base digits < integerBound) (value digits)

theorem steady_readFraction : Steady readFraction? := by
  have reads : readFraction? =
      byWord ['.'] (readDigits? Char.isDigit) fun chars => some ([], chars) := by
    funext chars
    unfold readFraction?
    split
    · rfl
    · rename_i other
      rw [byWord_of_other _ _ other]
  rw [reads]
  exact .byWord (by decide) (steady_readDigits (by decide) (by decide)) (.give [])

/-- Reads an exponent behind its sign. -/
def readPower? (negative : Bool) (chars : List Char) : Option (Option Int × List Char) :=
  (readDigits? Char.isDigit chars).bind fun (digits, rest) =>
    some (some (if negative then -(digitsValue 10 digits : Int) else digitsValue 10 digits), rest)

theorem steady_readPower (negative : Bool) : Steady (readPower? negative) := by
  have digits : Steady (readDigits? Char.isDigit) := steady_readDigits (by decide) (by decide)
  exact digits.bind fun digits =>
    .give (some (if negative then -(digitsValue 10 digits : Int) else digitsValue 10 digits))

theorem steady_readExponent : Steady readExponent? := by
  have marked : Steady fun chars =>
      (some (readSign chars)).bind fun signed => readPower? signed.1 signed.2 :=
    steady_readSign.bind steady_readPower
  have reads : readExponent? = byFirst (fun mark => decide (mark = 'e' ∨ mark = 'E'))
      (fun _ chars => (some (readSign chars)).bind fun signed => readPower? signed.1 signed.2)
      (fun chars => some (none, chars)) := by
    funext chars
    cases chars with
    | nil => rfl
    | cons mark chars =>
        simp only [byFirst, decide_eq_true_eq]
        rfl
  rw [reads]
  exact .byFirst (by decide) (fun _ => marked) (.give none)

theorem steady_readDecimal (negative : Bool) : Steady (readDecimal? negative) := by
  have value (whole fraction : List Char) (exponent : Option Int) : Steady fun chars =>
      let integer : Int := if negative then -(digitsValue 10 whole : Int) else digitsValue 10 whole
      if fraction.isEmpty && exponent.isNone then
        (guard (-(integerBound : Int) ≤ integer ∧ integer < integerBound) : Option Unit).bind
          fun _ => some (Value.integer integer, chars)
      else
        (guard (negative || !exceedsFloat (whole ++ fraction)
          (exponent.getD 0 - fraction.length)) : Option Unit).bind
          fun _ => some (Value.float, chars) := by
    dsimp only
    split
    · exact .guarded _ (.give _)
    · exact .guarded _ (.give _)
  exact steady_readWhole.bind fun whole => steady_readFraction.bind fun fraction =>
    steady_readExponent.bind (value whole fraction)

/-- Reads a number of base ten, or a word that stands for one, behind its sign. -/
def readUnsigned? (negative : Bool) : List Char → Option (Value × List Char) :=
  byWord ['i', 'n', 'f'] (fun chars => some (.float, chars))
    (byWord ['n', 'a', 'n'] (fun chars => some (.float, chars)) (readDecimal? negative))

theorem steady_readUnsigned (negative : Bool) : Steady (readUnsigned? negative) :=
  .byWord (by decide) (.give Value.float)
    (.byWord (by decide) (.give Value.float) (steady_readDecimal negative))

theorem steady_readNumber : Steady readNumber? := by
  have reads : readNumber? =
      byWord ['0', 'x'] (readBased? 16) (byWord ['0', 'o'] (readBased? 8)
        (byWord ['0', 'b'] (readBased? 2) fun chars =>
          (some (readSign chars)).bind fun signed => readUnsigned? signed.1 signed.2)) := by
    funext chars
    unfold readNumber?
    split
    · rfl
    · rfl
    · rfl
    · rename_i noHex noOctal noBinary
      rw [byWord_of_other _ _ noHex, byWord_of_other _ _ noOctal, byWord_of_other _ _ noBinary]
      simp only [Option.bind_some, readUnsigned?]
      split
      · rename_i same
        rw [same]
        rfl
      · rename_i same
        rw [same]
        rfl
      · rename_i noInf noNan
        rw [byWord_of_other _ _ noInf, byWord_of_other _ _ noNan]
  rw [reads]
  refine .byWord (by decide) (steady_readBased (by decide) (by decide)) ?_
  refine .byWord (by decide) (steady_readBased (by decide) (by decide)) ?_
  refine .byWord (by decide) (steady_readBased (by decide) (by decide)) ?_
  exact steady_readSign.bind steady_readUnsigned

end SemanticHighlight.Toml
