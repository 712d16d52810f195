import SemanticHighlight.Proofs.Token.Excerpt

/-!
# Cutting keeps what lies inside the span

A token covers the places from its start up to its stop, and a span holds the places from its start
up to its stop. What a cut leaves of a token covers the places that both have, so each place inside
the span stays covered as often as before, and no place outside is covered. A token that is cut is
told by these places alone, and it is left out when there are none.
-/

set_option autoImplicit false

namespace SemanticHighlight.Token

/-! ## Tokens that end where their length says -/

/-- A token that covers some place, and whose stop is not held back at the greatest column. -/
structure Proper (token : Token) : Prop where
  nonempty : 0 < token.length
  fits : token.start.toNat + token.length.toNat < UInt32.size

theorem Proper.stop_eq {token : Token} (proper : token.Proper) :
    token.stop = token.start + token.length := by
  have exact : Word.sum? token.start token.length = some (token.start + token.length) :=
    if_pos proper.fits
  rw [stop, Word.saturatedSum, exact, Option.getD_some]

theorem Proper.toNat_stop {token : Token} (proper : token.Proper) :
    token.stop.toNat = token.start.toNat + token.length.toNat := by
  have fits := proper.fits
  simp only [UInt32.size] at fits
  rw [stop, Word.toNat_saturatedSum]
  omega

theorem Proper.covers_position {token : Token} (proper : token.Proper) :
    token.covers token.position = true := by
  have nonempty := proper.nonempty
  simp only [covers_iff, position, UInt32.lt_iff_toNat_lt, UInt32.le_refl, proper.toNat_stop,
    UInt32.toNat_zero, true_and] at nonempty ⊢
  omega

/-- The place in front of the stop is the last one that a token covers. -/
theorem Proper.covers_last {token : Token} (proper : token.Proper) :
    ∃ last : UInt32, last.toNat + 1 = token.stop.toNat ∧
      token.covers ⟨token.line, last⟩ = true := by
  have nonempty := proper.nonempty
  have total := proper.toNat_stop
  have bound := token.stop.toNat_lt
  simp only [UInt32.lt_iff_toNat_lt, UInt32.toNat_zero] at nonempty
  refine ⟨.ofNat (token.stop.toNat - 1), ?_⟩
  simp only [covers_iff, UInt32.lt_iff_toNat_lt, UInt32.le_iff_toNat_le, true_and]
  rw [UInt32.toNat_ofNat_of_lt' (by simp only [UInt32.size]; omega)]
  omega

theorem Proper.within_of_covers {token other : Token} (proper : token.Proper)
    (around : ∀ place, token.covers place = true → other.covers place = true) :
    other.line = token.line ∧ other.start ≤ token.start ∧ token.stop ≤ other.stop := by
  -- The first and the last place that the token covers say this much about the other.
  obtain ⟨last, isLast, coversLast⟩ := proper.covers_last
  obtain ⟨sameLine, begins, _⟩ := covers_iff.mp (around _ proper.covers_position)
  obtain ⟨_, _, ends⟩ := covers_iff.mp (around _ coversLast)
  simp only [UInt32.lt_iff_toNat_lt] at ends
  exact ⟨sameLine, begins, UInt32.le_iff_toNat_le.mpr (by omega)⟩

/-- A proper token is told by its type, its modifiers and the places that it covers. -/
theorem Proper.eq_of_covers {left right : Token} (leftProper : left.Proper)
    (rightProper : right.Proper) (sameType : left.typeId = right.typeId)
    (sameModifiers : left.modifiers = right.modifiers)
    (samePlaces : ∀ place, left.covers place = right.covers place) : left = right := by
  obtain ⟨sameLine, begins, ends⟩ := leftProper.within_of_covers fun place covered =>
    (samePlaces place) ▸ covered
  obtain ⟨_, beginsBack, endsBack⟩ := rightProper.within_of_covers fun place covered =>
    (samePlaces place).symm ▸ covered
  have sameStart : left.start = right.start := UInt32.le_antisymm beginsBack begins
  have sameLength : left.length = right.length := by
    simp only [UInt32.le_iff_toNat_le, leftProper.toNat_stop, rightProper.toNat_stop,
      ← UInt32.toNat_inj] at ends endsBack sameStart ⊢
    omega
  cases left
  cases right
  simp_all

/-! ## What a span leaves of a token -/

theorem between_clipped_iff {span : Span} {token : Token} {place : Position}
    (sameLine : token.line = place.line) :
    (span.start.line ≤ token.line ∧ token.line ≤ span.stop.line) ∧
        token.clippedStart span ≤ place.character ∧ place.character < token.clippedStop span ↔
      token.covers place = true ∧ span.contains place = true := by
  simp only [covers_iff, Span.contains_iff, Position.le_iff, Position.lt_iff, ← sameLine,
    clippedStart, clippedStop, true_and]
  -- The line of the token may be the first of the span, its last, both or neither.
  split <;> split <;>
    simp only [UInt32.lt_iff_toNat_lt, UInt32.le_iff_toNat_le, Word.toNat_max, Word.toNat_min,
      ← UInt32.toNat_inj] at * <;> omega

theorem of_clip? {span : Span} {token clipped : Token} (kept : clip? span token = some clipped) :
    (span.start.line ≤ token.line ∧ token.line ≤ span.stop.line) ∧
      token.clippedStart span < token.clippedStop span ∧
      clipped = { token with
        start := token.clippedStart span
        length := token.clippedStop span - token.clippedStart span } := by
  unfold clip? at kept
  split at kept
  · rename_i inside
    cases kept
    exact ⟨⟨inside.1, inside.2.1⟩, inside.2.2, rfl⟩
  · cases kept

theorem proper_of_clip? {span : Span} {token clipped : Token}
    (kept : clip? span token = some clipped) : clipped.Proper := by
  obtain ⟨_, nonempty, rfl⟩ := of_clip? kept
  have bound := (token.clippedStop span).toNat_lt
  have length := UInt32.toNat_sub_of_le _ _ (UInt32.le_of_lt nonempty)
  rw [UInt32.lt_iff_toNat_lt] at nonempty
  constructor
  · rw [UInt32.lt_iff_toNat_lt, length, UInt32.toNat_zero]
    omega
  · simp only [length, UInt32.size]
    omega

theorem stop_of_clip? {span : Span} {token clipped : Token}
    (kept : clip? span token = some clipped) : clipped.stop = token.clippedStop span := by
  rw [(proper_of_clip? kept).stop_eq]
  obtain ⟨_, _, rfl⟩ := of_clip? kept
  exact (UInt32.add_comm ..).trans (UInt32.sub_add_cancel ..)

theorem kind_of_clip? {span : Span} {token clipped : Token}
    (kept : clip? span token = some clipped) :
    clipped.typeId = token.typeId ∧ clipped.modifiers = token.modifiers := by
  obtain ⟨_, _, rfl⟩ := of_clip? kept
  exact ⟨rfl, rfl⟩

/-- What is left of a token covers the places that the token covers and the span holds. -/
theorem covers_of_clip? {span : Span} {token clipped : Token}
    (kept : clip? span token = some clipped) (place : Position) :
    clipped.covers place = (token.covers place && span.contains place) := by
  have ends := stop_of_clip? kept
  obtain ⟨lines, _, rfl⟩ := of_clip? kept
  rw [Bool.eq_iff_iff, Bool.and_eq_true, covers_iff, ends]
  constructor
  · intro covered
    have sameLine : token.line = place.line := covered.1
    exact (between_clipped_iff sameLine).mp ⟨lines, covered.2⟩
  · intro covered
    have sameLine := (covers_iff.mp covered.1).1
    exact ⟨sameLine, ((between_clipped_iff sameLine).mpr covered).2⟩

theorem clip?_eq_none_iff {span : Span} {token : Token} :
    clip? span token = none ↔
      ∀ place, token.covers place = true → span.contains place = false := by
  constructor
  · intro leftOut place covered
    rw [Bool.eq_false_iff]
    intro held
    have sameLine := (covers_iff.mp covered).1
    obtain ⟨⟨first, last⟩, begins, ends⟩ := (between_clipped_iff sameLine).mpr ⟨covered, held⟩
    unfold clip? at leftOut
    rw [if_pos ⟨first, last, Std.lt_of_le_of_lt begins ends⟩] at leftOut
    cases leftOut
  · intro apart
    cases kept : clip? span token with
    | none => rfl
    | some clipped =>
        have covered := (proper_of_clip? kept).covers_position
        rw [covers_of_clip? kept, Bool.and_eq_true] at covered
        rw [apart _ covered.1] at covered
        cases covered.2

/-- What a span leaves of a token is the proper token of its type and modifiers that covers the
places that both have. -/
theorem clip?_eq_some_iff {span : Span} {token clipped : Token} :
    clip? span token = some clipped ↔
      clipped.Proper ∧ clipped.typeId = token.typeId ∧ clipped.modifiers = token.modifiers ∧
        ∀ place, clipped.covers place = (token.covers place && span.contains place) := by
  constructor
  · intro kept
    obtain ⟨sameType, sameModifiers⟩ := kind_of_clip? kept
    exact ⟨proper_of_clip? kept, sameType, sameModifiers, covers_of_clip? kept⟩
  · intro cut
    obtain ⟨proper, sameType, sameModifiers, places⟩ := cut
    cases kept : clip? span token with
    | none =>
        have covered := proper.covers_position
        rw [places, Bool.and_eq_true] at covered
        rw [clip?_eq_none_iff.mp kept _ covered.1] at covered
        cases covered.2
    | some other =>
        obtain ⟨otherType, otherModifiers⟩ := kind_of_clip? kept
        have same : other = clipped :=
          (proper_of_clip? kept).eq_of_covers proper (otherType.trans sameType.symm)
            (otherModifiers.trans sameModifiers.symm)
            fun place => (covers_of_clip? kept place).trans (places place).symm
        rw [same]

/-! ## How often a place is covered -/

/-- The token covers a place with the given type and modifiers. -/
def colours (place : Position) (typeId modifiers : UInt32) (token : Token) : Bool :=
  token.covers place && token.typeId == typeId && token.modifiers == modifiers

/-- How many tokens cover a place with the given type and modifiers. -/
def coverage (tokens : List Token) (place : Position) (typeId modifiers : UInt32) : Nat :=
  tokens.countP (colours place typeId modifiers)

theorem colours_clip? (span : Span) (token : Token) (place : Position)
    (typeId modifiers : UInt32) :
    ((clip? span token).map (colours place typeId modifiers)).getD false =
      (span.contains place && token.colours place typeId modifiers) := by
  cases kept : clip? span token with
  | none =>
      have apart := clip?_eq_none_iff.mp kept place
      cases covered : token.covers place with
      | false => simp [colours, covered]
      | true => simp [apart covered]
  | some clipped =>
      obtain ⟨_, sameType, sameModifiers, places⟩ := clip?_eq_some_iff.mp kept
      simp only [Option.map_some, Option.getD_some, colours, sameType, sameModifiers, places]
      cases span.contains place <;> simp

theorem coverage_clip (span : Span) (tokens : List Token) (place : Position)
    (typeId modifiers : UInt32) :
    coverage (clip span tokens) place typeId modifiers =
      if span.contains place then coverage tokens place typeId modifiers else 0 := by
  simp only [coverage, clip, List.countP_filterMap, colours_clip?]
  cases span.contains place <;> simp

/-- Tokens read from the part of an array inside a span have a length, and cover each place inside
the span as often, by type and modifiers, as the tokens of the array; they cover no place outside. -/
theorem coverage_excerpt {span : Span} {data : List UInt32} {tokens : List Token}
    (accepted : decode data = .ok tokens) :
    ∃ kept, decode (excerpt span data) = .ok kept ∧
      (∀ place typeId modifiers, coverage kept place typeId modifiers =
        if span.contains place then coverage tokens place typeId modifiers else 0) ∧
      ∀ token ∈ kept, 0 < token.length := by
  refine ⟨clip span tokens, decode_excerpt span accepted, coverage_clip span tokens, ?_⟩
  intro token member
  obtain ⟨_, _, kept⟩ := List.mem_filterMap.mp member
  exact (proper_of_clip? kept).nonempty

/-- Two tokens of one kind that begin together and stick out in front, one without a length, one that
is held at the greatest column and one that sticks out behind. -/
theorem coverage_excerpt_overlapping :
    let span : Span := ⟨⟨0, 8⟩, ⟨2, 3⟩⟩
    let data : List UInt32 :=
      [0, 3, 12, 1, 0, 0, 0, 7, 1, 0, 0, 6, 0, 1, 0, 0, 4294967281, 9, 1, 0, 2, 1, 4, 1, 0]
    let tokens : List Token :=
      [⟨0, 3, 12, 1, 0⟩, ⟨0, 3, 7, 1, 0⟩, ⟨0, 9, 0, 1, 0⟩, ⟨0, 4294967290, 9, 1, 0⟩, ⟨2, 1, 4, 1, 0⟩]
    decode data = .ok tokens ∧
      coverage tokens ⟨0, 7⟩ 1 0 = 2 ∧ coverage tokens ⟨2, 3⟩ 1 0 = 1 ∧
      ∃ kept, decode (excerpt span data) = .ok kept ∧
        coverage kept ⟨0, 7⟩ 1 0 = 0 ∧ coverage kept ⟨0, 9⟩ 1 0 = 2 ∧
        coverage kept ⟨0, 4294967294⟩ 1 0 = 1 ∧ coverage kept ⟨2, 3⟩ 1 0 = 0 ∧
        ∀ token ∈ kept, 0 < token.length := by
  intro span data tokens
  have accepted : decode data = .ok tokens :=
    decode_eq_ok_iff_inOrder_and_encode_eq.mpr ⟨by decide, by decide⟩
  obtain ⟨kept, read, covered, nonempty⟩ := @coverage_excerpt span data tokens accepted
  exact ⟨accepted, by decide, by decide, kept, read, covered .., covered .., covered .., covered ..,
    nonempty⟩

end SemanticHighlight.Token
