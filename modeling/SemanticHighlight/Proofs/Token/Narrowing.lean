import Mathlib.Data.List.Basic
import SemanticHighlight.Proofs.Token.Coverage

/-!
# Cutting again, and cutting nothing

What a cut leaves of a token is told by the places that the span holds. Two cuts one after the other
therefore leave what one cut to the intersection of their spans does, in the same words, and a cut
leaves an array as it is when the span holds every place of every token and no token is held back at
the greatest column.
-/

set_option autoImplicit false

namespace SemanticHighlight.Token

/-! ## One cut after the other -/

theorem clip?_congr {first second : Span} (token : Token)
    (samePlaces : ∀ place, first.contains place = second.contains place) :
    clip? first token = clip? second token := by
  apply Option.ext
  intro clipped
  simp only [clip?_eq_some_iff, samePlaces]

theorem clip_congr {first second : Span} (tokens : List Token)
    (samePlaces : ∀ place, first.contains place = second.contains place) :
    clip first tokens = clip second tokens :=
  List.filterMap_congr fun token _ => clip?_congr token samePlaces

/-- What a cut leaves of a part is what one cut to both spans leaves of the whole. -/
theorem clip?_of_clip? {first : Span} {token part : Token} (kept : clip? first token = some part)
    (second : Span) : clip? second part = clip? (first.intersection second) token := by
  obtain ⟨_, sameType, sameModifiers, places⟩ := clip?_eq_some_iff.mp kept
  apply Option.ext
  intro clipped
  simp only [clip?_eq_some_iff, sameType, sameModifiers, places, Span.contains_intersection,
    Bool.and_assoc]

theorem clip?_bind_clip? (first second : Span) (token : Token) :
    (clip? first token).bind (clip? second) = clip? (first.intersection second) token := by
  cases kept : clip? first token with
  | some part => exact clip?_of_clip? kept second
  | none =>
      have leftOut : clip? (first.intersection second) token = none := by
        rw [clip?_eq_none_iff]
        intro place covered
        rw [Span.contains_intersection, clip?_eq_none_iff.mp kept place covered, Bool.false_and]
      exact leftOut.symm

theorem clip_clip (first second : Span) (tokens : List Token) :
    clip second (clip first tokens) = clip (first.intersection second) tokens := by
  simp only [clip, List.filterMap_filterMap, clip?_bind_clip?]

/-- An array that can be read, cut to one span and then to another, is the array cut once to the
intersection of both. So to cut it to the same span again changes nothing, and the order of two
cuts does not matter. -/
theorem excerpt_excerpt {data : List UInt32} {tokens : List Token}
    (accepted : decode data = .ok tokens) (first second : Span) :
    excerpt second (excerpt first data) = excerpt (first.intersection second) data ∧
      excerpt first (excerpt first data) = excerpt first data ∧
      excerpt second (excerpt first data) = excerpt first (excerpt second data) := by
  have twice : ∀ inner outer : Span, excerpt outer (excerpt inner data) =
      encode (clip (inner.intersection outer) tokens) := by
    intro inner outer
    rw [excerpt_of_decode outer (decode_excerpt inner accepted), clip_clip]
  refine ⟨?_, ?_, ?_⟩
  · rw [twice, excerpt_of_decode _ accepted]
  · rw [twice, excerpt_of_decode _ accepted]
    congr 1
    apply clip_congr
    intro place
    rw [Span.contains_intersection, Bool.and_self]
  · rw [twice, twice]
    congr 1
    apply clip_congr
    intro place
    rw [Span.contains_intersection, Span.contains_intersection, Bool.and_comm]

/-- The first span begins inside the first token and ends inside the last; the second begins behind
the first one's start and ends on the line before, at a token that is held at the greatest column. -/
theorem excerpt_excerpt_straddling :
    let first : Span := ⟨⟨0, 2⟩, ⟨1, 6⟩⟩
    let second : Span := ⟨⟨0, 5⟩, ⟨0, 4294967293⟩⟩
    let data : List UInt32 := [0, 1, 8, 0, 0, 0, 4294967289, 9, 1, 0, 1, 4, 3, 0, 1]
    let tokens : List Token := [⟨0, 1, 8, 0, 0⟩, ⟨0, 4294967290, 9, 1, 0⟩, ⟨1, 4, 3, 0, 1⟩]
    decode data = .ok tokens ∧
      excerpt second (excerpt first data) = excerpt ⟨⟨0, 5⟩, ⟨0, 4294967293⟩⟩ data ∧
      excerpt second (excerpt first data) = [0, 5, 4, 0, 0, 0, 4294967285, 3, 1, 0] ∧
      excerpt first (excerpt second data) = excerpt second (excerpt first data) := by
  intro first second data tokens
  have accepted : decode data = .ok tokens :=
    decode_eq_ok_iff_inOrder_and_encode_eq.mpr ⟨by decide, by decide⟩
  obtain ⟨once, _, turned⟩ := excerpt_excerpt accepted first second
  exact ⟨accepted, once, once.trans (by decide), turned.symm⟩

/-! ## Cuts that change nothing -/

/-- A proper token that begins and ends inside the span. -/
structure Within (span : Span) (token : Token) : Prop extends token.Proper where
  begins : span.start ≤ token.position
  ends : ⟨token.line, token.start + token.length⟩ ≤ span.stop

theorem Within.contains_of_covers {span : Span} {token : Token} {place : Position}
    (within : Within span token) (covered : token.covers place = true) :
    span.contains place = true := by
  obtain ⟨sameLine, behindStart, beforeStop⟩ := covers_iff.mp covered
  have ends := within.ends
  rw [← within.stop_eq] at ends
  rw [Span.contains_iff, ← Position.not_le]
  constructor
  · exact Position.le_trans within.begins (Or.inr ⟨sameLine, behindStart⟩)
  · intro past
    rcases Position.le_trans ends past with below | ⟨_, reached⟩
    · exact UInt32.lt_irrefl _ (sameLine ▸ below)
    · exact UInt32.not_lt.mpr reached beforeStop

/-- It is enough to ask for the first and the last place that the token covers. -/
theorem within_iff {span : Span} {token : Token} :
    Within span token ↔
      token.Proper ∧ ∀ place, token.covers place = true → span.contains place = true := by
  constructor
  · intro within
    exact ⟨within.toProper, fun _ covered => within.contains_of_covers covered⟩
  · intro held
    obtain ⟨proper, held⟩ := held
    obtain ⟨last, isLast, coversLast⟩ := proper.covers_last
    have first := (Span.contains_iff.mp (held _ proper.covers_position)).1
    have final := (Span.contains_iff.mp (held _ coversLast)).2
    refine { toProper := proper, begins := first, ends := ?_ }
    rw [← proper.stop_eq]
    simp only [Position.le_iff, Position.lt_iff, UInt32.lt_iff_toNat_lt, UInt32.le_iff_toNat_le,
      ← UInt32.toNat_inj] at final ⊢
    omega

theorem clip?_eq_self_iff {span : Span} {token : Token} :
    clip? span token = some token ↔ Within span token := by
  simp only [clip?_eq_some_iff, within_iff, true_and, Bool.eq_self_and]

/-- A token that is left out is not made up for by what is left of the others. -/
theorem clip_eq_self_iff {span : Span} {tokens : List Token} :
    clip span tokens = tokens ↔ ∀ token ∈ tokens, Within span token := by
  have same := @List.filterMap_eq_map_iff_forall_eq_some _ _ (clip? span) id tokens
  simpa only [clip, List.map_id, id, clip?_eq_self_iff] using same

/-- An array that can be read is left as it is, word for word, by a cut to a span exactly when each of
its tokens has a length, does not end behind the greatest column, and begins and ends inside the
span. -/
theorem excerpt_eq_self_iff {span : Span} {data : List UInt32} {tokens : List Token}
    (accepted : decode data = .ok tokens) :
    excerpt span data = data ↔ ∀ token ∈ tokens, Within span token := by
  rw [← clip_eq_self_iff]
  constructor
  · intro unchanged
    have read := decode_excerpt span accepted
    rw [unchanged, accepted] at read
    exact (Except.ok.inj read).symm
  · intro unchanged
    rw [excerpt_of_decode span accepted, unchanged, ← (eq_encode_of_decode accepted).2]

/-- The second token ends where the span does. It is cut by a span that ends one column sooner. -/
theorem excerpt_eq_self_iff_touching :
    let data : List UInt32 := [1, 4, 4, 0, 0, 2, 4294967290, 5, 1, 2]
    let tokens : List Token := [⟨1, 4, 4, 0, 0⟩, ⟨3, 4294967290, 5, 1, 2⟩]
    decode data = .ok tokens ∧
      excerpt ⟨⟨1, 4⟩, ⟨3, 4294967295⟩⟩ data = data ∧
      excerpt ⟨⟨1, 4⟩, ⟨3, 4294967294⟩⟩ data ≠ data := by
  intro data tokens
  have accepted : decode data = .ok tokens :=
    decode_eq_ok_iff_inOrder_and_encode_eq.mpr ⟨by decide, by decide⟩
  refine ⟨accepted, (excerpt_eq_self_iff accepted).mpr ?_, ?_⟩
  · intro token member
    simp only [tokens, List.mem_cons, List.not_mem_nil, or_false] at member
    rcases member with rfl | rfl
    · exact ⟨⟨by decide, by decide⟩, by decide, by decide⟩
    · exact ⟨⟨by decide, by decide⟩, by decide, by decide⟩
  · intro unchanged
    have within := (excerpt_eq_self_iff accepted).mp unchanged ⟨3, 4294967290, 5, 1, 2⟩ (by decide)
    exact absurd within.ends (by decide)

end SemanticHighlight.Token
