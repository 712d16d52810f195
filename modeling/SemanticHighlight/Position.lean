/-!
# Positions and spans in a text

Positions are ordered by line and then by character. A span is half open: it holds its start and
not its stop.
-/

set_option autoImplicit false

namespace SemanticHighlight

/-- A place in a text, both parts counted from zero. -/
structure Position where
  line : UInt32
  character : UInt32
deriving DecidableEq

namespace Position

def origin : Position := ⟨0, 0⟩

instance : Ord Position where
  compare := compareLex (compareOn Position.line) (compareOn Position.character)

instance : LT Position where
  lt left right :=
    left.line < right.line ∨ left.line = right.line ∧ left.character < right.character

instance : LE Position where
  le left right :=
    left.line < right.line ∨ left.line = right.line ∧ left.character ≤ right.character

instance (left right : Position) : Decidable (left < right) :=
  inferInstanceAs (Decidable (left.line < right.line ∨
    left.line = right.line ∧ left.character < right.character))

instance (left right : Position) : Decidable (left ≤ right) :=
  inferInstanceAs (Decidable (left.line < right.line ∨
    left.line = right.line ∧ left.character ≤ right.character))

instance : Max Position := maxOfLe

instance : Min Position := minOfLe

theorem lt_iff {left right : Position} :
    left < right ↔ left.line < right.line ∨
      left.line = right.line ∧ left.character < right.character :=
  Iff.rfl

theorem le_iff {left right : Position} :
    left ≤ right ↔ left.line < right.line ∨
      left.line = right.line ∧ left.character ≤ right.character :=
  Iff.rfl

theorem le_refl (position : Position) : position ≤ position :=
  Or.inr ⟨rfl, UInt32.le_refl _⟩

theorem origin_le (position : Position) : origin ≤ position := by
  simp only [le_iff, origin, UInt32.lt_iff_toNat_lt, UInt32.le_iff_toNat_le, ← UInt32.toNat_inj,
    UInt32.toNat_zero]
  omega

theorem not_le {left right : Position} : ¬ left ≤ right ↔ right < left := by
  simp only [le_iff, lt_iff, UInt32.lt_iff_toNat_lt, UInt32.le_iff_toNat_le, ← UInt32.toNat_inj]
  omega

theorem le_trans {first second third : Position} (before : first ≤ second)
    (after : second ≤ third) : first ≤ third := by
  simp only [le_iff, UInt32.lt_iff_toNat_lt, UInt32.le_iff_toNat_le, ← UInt32.toNat_inj] at *
  omega

theorem max_le_iff {left right position : Position} :
    max left right ≤ position ↔ left ≤ position ∧ right ≤ position := by
  change (if left ≤ right then right else left) ≤ position ↔ _
  simp only [le_iff, UInt32.lt_iff_toNat_lt, UInt32.le_iff_toNat_le, ← UInt32.toNat_inj]
  split <;> omega

theorem lt_min_iff {left right position : Position} :
    position < min left right ↔ position < left ∧ position < right := by
  change position < (if left ≤ right then left else right) ↔ _
  simp only [le_iff, lt_iff, UInt32.lt_iff_toNat_lt, UInt32.le_iff_toNat_le, ← UInt32.toNat_inj]
  split <;> omega

end Position

/-- The places from `start` up to, and without, `stop`. -/
structure Span where
  start : Position
  stop : Position
deriving DecidableEq

namespace Span

def empty : Span := ⟨.origin, .origin⟩

def onLine (line first last : UInt32) : Span :=
  ⟨⟨line, first⟩, ⟨line, last⟩⟩

def isSingleLine (span : Span) : Bool :=
  span.start.line == span.stop.line

def contains (span : Span) (position : Position) : Bool :=
  span.start ≤ position && position < span.stop

/-- From the later start to the earlier stop, which may lie in front of it. -/
def intersection (first second : Span) : Span :=
  ⟨max first.start second.start, min first.stop second.stop⟩

/-- How many characters a span covers, when it lies on one line and does not run backwards. -/
def length? (span : Span) : Option UInt32 :=
  if span.isSingleLine && span.start.character ≤ span.stop.character then
    some (span.stop.character - span.start.character)
  else
    none

theorem contains_iff {span : Span} {position : Position} :
    span.contains position = true ↔ span.start ≤ position ∧ position < span.stop := by
  simp only [contains, Bool.and_eq_true, decide_eq_true_eq]

theorem contains_intersection (first second : Span) (position : Position) :
    (first.intersection second).contains position =
      (first.contains position && second.contains position) := by
  rw [Bool.eq_iff_iff, Bool.and_eq_true]
  simp only [contains_iff, intersection, Position.max_le_iff, Position.lt_min_iff]
  exact and_and_and_comm

theorem length?_eq_some_iff {span : Span} {length : UInt32} :
    span.length? = some length ↔
      (span.start.line = span.stop.line ∧ span.start.character ≤ span.stop.character) ∧
        span.stop.character - span.start.character = length := by
  simp only [length?, isSingleLine, Bool.and_eq_true, beq_iff_eq, decide_eq_true_eq,
    Option.ite_none_right_eq_some, Option.some.injEq]

theorem length?_eq_none_iff {span : Span} :
    span.length? = none ↔
      span.start.line ≠ span.stop.line ∨ span.stop.character < span.start.character := by
  simp only [length?, isSingleLine, Bool.and_eq_true, beq_iff_eq, decide_eq_true_eq, ite_eq_right_iff,
    reduceCtorEq, imp_false, Classical.not_and_iff_not_or_not, UInt32.not_le, ne_eq]

end Span

end SemanticHighlight
