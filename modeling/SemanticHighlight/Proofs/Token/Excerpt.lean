import SemanticHighlight.Proofs.Token.RoundTrip
import SemanticHighlight.Token.Clip
import SemanticHighlight.Token.Excerpt

/-!
# Cutting an array is cutting its tokens

The scan of an array that can be read keeps exactly the clipped tokens, in the order of the array,
and no sum or difference on the way leaves the words. What carries the induction is that the place
kept last does not lie behind the cut of the place read last.
-/

set_option autoImplicit false

namespace SemanticHighlight.Token

/-- Where the part of a token that begins at `place` begins. -/
def cutPosition (span : Span) (place : Position) : Position :=
  ⟨place.line, cutStart span place⟩

theorem cutPosition_mono {span : Span} {place later : Position} (ordered : place ≤ later) :
    cutPosition span place ≤ cutPosition span later := by
  have sameCut : place.line = later.line → cutStart span place ≤ cutStart span later := by
    intro sameLine
    simp only [Position.le_iff, sameLine, UInt32.lt_irrefl, true_and, false_or] at ordered
    unfold cutStart
    rw [sameLine]
    split
    · simp only [UInt32.le_iff_toNat_le, Word.toNat_max] at ordered ⊢
      omega
    · exact ordered
  rcases ordered with forward | ⟨sameLine, _⟩
  · exact Or.inl forward
  · exact Or.inr ⟨sameLine, sameCut sameLine⟩

/-! ## Tokens that a span leaves out -/

theorem clip?_eq_none_of_line_lt {span : Span} {token : Token}
    (inFront : token.line < span.start.line) : clip? span token = none := by
  apply if_neg
  intro inside
  exact absurd inside.1 (UInt32.not_le.mpr inFront)

theorem clip?_eq_none_of_stop_le {span : Span} {token : Token}
    (behind : span.stop ≤ token.position) : clip? span token = none := by
  apply if_neg
  intro inside
  obtain ⟨_, notBelow, nonempty⟩ := inside
  rcases behind with below | ⟨sameLine, past⟩
  · exact absurd notBelow (UInt32.not_le.mpr below)
  · have lastLine : token.line = span.stop.line := sameLine.symm
    have first : token.start ≤ token.clippedStart span := by
      unfold clippedStart
      split
      · rw [UInt32.le_iff_toNat_le, Word.toNat_max]
        omega
      · exact UInt32.le_refl _
    simp only [clippedStop, lastLine, ↓reduceIte, position, UInt32.lt_iff_toNat_lt,
      UInt32.le_iff_toNat_le, Word.toNat_min] at nonempty past first
    omega

theorem clip?_of_between {span : Span} {token : Token} (notInFront : ¬ token.line < span.start.line)
    (notBehind : ¬ span.stop ≤ token.position) :
    clip? span token =
      if token.clippedStop span ≤ token.clippedStart span then none
      else some { token with
        start := token.clippedStart span
        length := token.clippedStop span - token.clippedStart span } := by
  have firstLine : span.start.line ≤ token.line := UInt32.not_lt.mp notInFront
  have lastLine : token.line ≤ span.stop.line := by
    rw [Position.not_le] at notBehind
    rcases notBehind with above | ⟨sameLine, _⟩
    · exact UInt32.le_of_lt above
    · exact UInt32.le_of_eq sameLine
  simp only [clip?, firstLine, lastLine, true_and, ← UInt32.not_le]
  split <;> simp_all

theorem clip_cons_of_none {span : Span} {token : Token} {tokens : List Token}
    (leftOut : clip? span token = none) : clip span (token :: tokens) = clip span tokens :=
  List.filterMap_cons_none leftOut

theorem clip_cons_of_some {span : Span} {token clipped : Token} {tokens : List Token}
    (kept : clip? span token = some clipped) :
    clip span (token :: tokens) = clipped :: clip span tokens :=
  List.filterMap_cons_some kept

theorem clip_eq_nil_of_stop_le {span : Span} {tokens : List Token}
    (behind : ∀ token ∈ tokens, span.stop ≤ token.position) : clip span tokens = [] := by
  rw [clip, List.filterMap_eq_nil_iff]
  intro token member
  exact clip?_eq_none_of_stop_le (behind token member)

/-- A clipped token begins where the span cuts it. -/
theorem position_of_clip? {span : Span} {token clipped : Token}
    (kept : clip? span token = some clipped) :
    clipped.position = cutPosition span token.position := by
  unfold clip? at kept
  split at kept
  · cases kept
    rfl
  · cases kept

theorem inOrder_clip {tokens : List Token} (span : Span) (ordered : InOrder tokens) :
    InOrder (clip span tokens) := by
  apply List.Pairwise.filterMap _ _ ordered
  intro earlier later forward clipped kept clippedLater keptLater
  rw [position_of_clip? kept, position_of_clip? keptLater]
  exact cutPosition_mono forward

/-! ## The scan with checked sums -/

theorem rebaseWith_difference? {kept? : Option Position} {place : Position}
    (ordered : kept?.getD .origin ≤ place) :
    rebaseWith Word.difference? kept? place =
      some (place.line - (kept?.getD .origin).line,
        if place.line - (kept?.getD .origin).line = 0 then
          place.character - (kept?.getD .origin).character
        else place.character) := by
  cases kept? with
  | none => simp [rebaseWith, Position.origin]
  | some kept =>
      simp only [Option.getD_some] at ordered ⊢
      rcases ordered with forward | ⟨sameLine, notBack⟩
      · have moved : place.line - kept.line ≠ 0 := by
          rw [ne_eq, ← UInt32.toNat_inj, UInt32.toNat_sub_of_le _ _ (UInt32.le_of_lt forward)]
          rw [UInt32.lt_iff_toNat_lt] at forward
          simp only [UInt32.toNat_zero]
          omega
        simp only [rebaseWith, forward, ↓reduceIte, Word.difference?, UInt32.le_of_lt forward, moved]
        rfl
      · simp only [rebaseWith, sameLine, UInt32.lt_irrefl, ↓reduceIte, Word.difference?, notBack,
          UInt32.sub_self]
        rfl

theorem scanWith_wordsAfter_append {span : Span} {here : Position} {kept? : Option Position}
    {token : Token} (rest : List UInt32) (ordered : here ≤ token.position) :
    scanWith Word.sum? Word.difference? span here kept? (token.wordsAfter here ++ rest) =
      if token.line < span.start.line then
        scanWith Word.sum? Word.difference? span token.position kept? rest
      else if span.stop ≤ token.position then
        some []
      else if token.clippedStop span ≤ token.clippedStart span then
        scanWith Word.sum? Word.difference? span token.position kept? rest
      else
        rebaseWith Word.difference? kept? (cutPosition span token.position) >>= fun delta =>
          Word.difference? (token.clippedStop span) (token.clippedStart span) >>= fun length =>
            scanWith Word.sum? Word.difference? span token.position
                (some (cutPosition span token.position)) rest >>= fun later =>
              some (delta.1 :: delta.2 :: length :: token.typeId :: token.modifiers :: later) := by
  simp only [position] at ordered
  simp only [wordsAfter, List.cons_append, List.nil_append, scanWith, stepWith_sum?, after?_step,
    ordered, ↓reduceIte, Option.bind_eq_bind, Option.bind_some]
  rfl

theorem checkedScan_encodeFrom {span : Span} {here : Position} {kept? : Option Position}
    {tokens : List Token} (ordered : InOrderFrom here tokens)
    (kept : kept?.getD .origin ≤ cutPosition span here) :
    scanWith Word.sum? Word.difference? span here kept? (encodeFrom here tokens) =
      some (encodeFrom (kept?.getD .origin) (clip span tokens)) := by
  induction tokens generalizing here kept? with
  | nil => rfl
  | cons token tokens ih =>
      obtain ⟨first, behind⟩ := ordered
      have keptBefore : kept?.getD .origin ≤ cutPosition span token.position :=
        Position.le_trans kept (cutPosition_mono first)
      rw [encodeFrom_cons, scanWith_wordsAfter_append _ first]
      by_cases inFront : token.line < span.start.line
      · rw [if_pos inFront, ih behind keptBefore,
          clip_cons_of_none (clip?_eq_none_of_line_lt inFront)]
      rw [if_neg inFront]
      by_cases past : span.stop ≤ token.position
      · -- The scan stops here, and every token that follows lies behind the span as well.
        have allPast : ∀ later ∈ token :: tokens, span.stop ≤ later.position := by
          intro later member
          rcases List.mem_cons.mp member with rfl | member
          · exact past
          · exact Position.le_trans past ((inOrderFrom_iff.mp behind).1 later member)
        rw [if_pos past, clip_eq_nil_of_stop_le allPast]
        rfl
      rw [if_neg past]
      have cut := clip?_of_between inFront past
      by_cases empty : token.clippedStop span ≤ token.clippedStart span
      · rw [if_pos empty] at cut ⊢
        rw [ih behind keptBefore, clip_cons_of_none cut]
      · rw [if_neg empty] at cut ⊢
        have nonempty : token.clippedStart span ≤ token.clippedStop span :=
          UInt32.le_of_lt (UInt32.not_le.mp empty)
        rw [rebaseWith_difference? keptBefore, Word.difference?, if_pos nonempty,
          ih behind (Position.le_refl _), clip_cons_of_some cut]
        rfl

/-! ## The scan with sums that wrap round -/

/-- Words are read five at a time, down to a rest that is no whole token. -/
@[elab_as_elim]
theorem words_induction {motive : List UInt32 → Prop}
    (rest : ∀ data : List UInt32, data.length < wordsPerToken → motive data)
    (token : ∀ (deltaLine deltaStart length typeId modifiers : UInt32) (data : List UInt32),
      motive data → motive (deltaLine :: deltaStart :: length :: typeId :: modifiers :: data)) :
    ∀ data, motive data
  | deltaLine :: deltaStart :: length :: typeId :: modifiers :: data =>
      token deltaLine deltaStart length typeId modifiers data (words_induction rest token data)
  | [] | [_] | [_, _] | [_, _, _] | [_, _, _, _] => rest _ (by simp [wordsPerToken])

theorem stepWith_of_checked {here place : Position} {deltaLine deltaStart : UInt32}
    (taken : stepWith Word.sum? here deltaLine deltaStart = some place) :
    Id.run (stepWith (fun left right => pure (left + right)) here deltaLine deltaStart) = place := by
  rw [stepWith_sum?] at taken
  unfold Position.after? at taken
  unfold stepWith
  split at taken
  · rename_i still
    obtain ⟨character, fits, rfl⟩ := Option.map_eq_some_iff.mp taken
    rw [if_pos still, Word.eq_add_of_sum? fits]
    rfl
  · rename_i moved
    obtain ⟨line, fits, rfl⟩ := Option.map_eq_some_iff.mp taken
    rw [if_neg moved, Word.eq_add_of_sum? fits]
    rfl

theorem rebaseWith_of_checked {kept? : Option Position} {place : Position}
    {delta : UInt32 × UInt32} (based : rebaseWith Word.difference? kept? place = some delta) :
    Id.run (rebaseWith (fun left right => pure (left - right)) kept? place) = delta := by
  cases kept? with
  | none => exact Option.some.inj based
  | some kept =>
      unfold rebaseWith at based ⊢
      dsimp only at based ⊢
      split at based
      · rename_i forward
        obtain ⟨deltaLine, fits, made⟩ := Option.bind_eq_some_iff.mp based
        rw [if_pos forward, ← Option.some.inj made, Word.eq_sub_of_difference? fits]
        rfl
      · rename_i sameLine
        obtain ⟨deltaStart, fits, made⟩ := Option.bind_eq_some_iff.mp based
        rw [if_neg sameLine, ← Option.some.inj made, Word.eq_sub_of_difference? fits]
        rfl

/-- An answer that needed no sum or difference outside the words is the one that is given when they
wrap round. -/
theorem scanWith_of_checked {span : Span} {here : Position} {kept? : Option Position}
    {data result : List UInt32}
    (checked : scanWith Word.sum? Word.difference? span here kept? data = some result) :
    Id.run (scanWith (fun left right => pure (left + right)) (fun left right => pure (left - right))
      span here kept? data) = result := by
  induction data using words_induction generalizing here kept? result with
  | rest data short =>
      match data with
      | [] | [_] | [_, _] | [_, _, _] | [_, _, _, _] => exact Option.some.inj checked
      | _ :: _ :: _ :: _ :: _ :: _ =>
          simp only [wordsPerToken, List.length_cons] at short
          omega
  | token deltaLine deltaStart length typeId modifiers data ih =>
      simp only [scanWith, Option.bind_eq_bind, Option.bind_eq_some_iff] at checked ⊢
      obtain ⟨place, taken, checked⟩ := checked
      rw [Id.run_bind, stepWith_of_checked taken]
      split at checked
      · rename_i inFront
        rw [if_pos inFront]
        exact ih checked
      rename_i notInFront
      rw [if_neg notInFront]
      split at checked
      · rename_i past
        rw [if_pos past]
        exact Option.some.inj checked
      rename_i notPast
      rw [if_neg notPast]
      split at checked
      · rename_i empty
        rw [if_pos empty]
        exact ih checked
      rename_i nonempty
      obtain ⟨delta, based, checked⟩ := Option.bind_eq_some_iff.mp checked
      obtain ⟨clippedLength, fits, checked⟩ := Option.bind_eq_some_iff.mp checked
      obtain ⟨later, scanned, made⟩ := Option.bind_eq_some_iff.mp checked
      rw [if_neg nonempty, Id.run_bind, rebaseWith_of_checked based, Id.run_bind, Id.run_bind,
        ih scanned, ← Option.some.inj made, Word.eq_sub_of_difference? fits]
      rfl

theorem excerpt_of_checked {span : Span} {data result : List UInt32}
    (checked : checkedExcerpt? span data = some result) : excerpt span data = result :=
  scanWith_of_checked checked

theorem checkedExcerpt?_of_decode {span : Span} {data : List UInt32} {tokens : List Token}
    (accepted : decode data = .ok tokens) :
    checkedExcerpt? span data = some (encode (clip span tokens)) := by
  obtain ⟨ordered, written⟩ := eq_encode_of_decode accepted
  rw [written]
  exact checkedScan_encodeFrom (inOrder_iff_inOrderFrom_origin.mp ordered) (Position.origin_le _)

theorem excerpt_of_decode (span : Span) {data : List UInt32} {tokens : List Token}
    (accepted : decode data = .ok tokens) : excerpt span data = encode (clip span tokens) :=
  excerpt_of_checked (checkedExcerpt?_of_decode accepted)

theorem decode_excerpt (span : Span) {data : List UInt32} {tokens : List Token}
    (accepted : decode data = .ok tokens) :
    decode (excerpt span data) = .ok (clip span tokens) := by
  rw [excerpt_of_decode span accepted]
  exact decode_encode (inOrder_clip span (eq_encode_of_decode accepted).1)

/-- Cutting an array that can be read gives the array of its clipped tokens, without a sum or a
difference outside the words, and these are the tokens read from it. -/
theorem excerpt_eq_encode_clip {span : Span} {data : List UInt32} {tokens : List Token}
    (accepted : decode data = .ok tokens) :
    checkedExcerpt? span data = some (excerpt span data) ∧
      excerpt span data = encode (clip span tokens) ∧
      decode (excerpt span data) = .ok (clip span tokens) := by
  have checked : checkedExcerpt? span data = some (encode (clip span tokens)) :=
    checkedExcerpt?_of_decode accepted
  have cut := excerpt_of_checked checked
  have ordered := inOrder_clip span (eq_encode_of_decode accepted).1
  rw [cut]
  exact ⟨checked, rfl, decode_encode ordered⟩

/-- Two tokens that begin together and stick out in front, one at the greatest column, and one that
is behind the end of its line. -/
theorem excerpt_eq_encode_clip_overlapping :
    let span : Span := ⟨⟨0, 8⟩, ⟨1, 2⟩⟩
    let data : List UInt32 :=
      [0, 3, 12, 1, 0, 0, 0, 7, 2, 4, 0, 4294967292, 9, 3, 0, 1, 1, 4, 1, 0, 0, 1, 4, 1, 0]
    let tokens : List Token :=
      [⟨0, 3, 12, 1, 0⟩, ⟨0, 3, 7, 2, 4⟩, ⟨0, 4294967295, 9, 3, 0⟩, ⟨1, 1, 4, 1, 0⟩, ⟨1, 2, 4, 1, 0⟩]
    decode data = .ok tokens ∧
      checkedExcerpt? span data = some (excerpt span data) ∧
      excerpt span data = encode (clip span tokens) ∧
      decode (excerpt span data) = .ok (clip span tokens) :=
  ⟨rfl, excerpt_eq_encode_clip rfl⟩

end SemanticHighlight.Token
