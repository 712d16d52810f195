import SemanticHighlight.Proofs.Token.Excerpt
import SemanticHighlight.Proofs.Token.Sums

/-!
# How far a cut reads

The scan for a span stops at the first token that begins behind the span and not on a line in front
of it. As long as the sums up to that token are words, no sum or difference of the scan leaves the
words, and what follows the token does not matter, be it words that cannot be read. A span that runs
backwards is no exception: since lines in front of it are passed over first, its scan stops later
than its end says.
-/

set_option autoImplicit false

namespace SemanticHighlight.Token

/-- The token at `index` is not on a line in front of the span, and begins behind the span. -/
def StopsAt (span : Span) (data : List UInt32) (index : Nat) : Prop :=
  span.start.line.toNat ≤ lineSum data index ∧
    (span.stop.line.toNat < lineSum data index ∨
      span.stop.line.toNat = lineSum data index ∧
        span.stop.character.toNat ≤ columnSum data index)

instance (span : Span) (data : List UInt32) (index : Nat) : Decidable (StopsAt span data index) :=
  inferInstanceAs (Decidable (_ ∧ _))

/-- The token at `index` is the first that stops the scan for `span`. -/
def FirstStop (span : Span) (data : List UInt32) (index : Nat) : Prop :=
  index < tokenCount data ∧ StopsAt span data index ∧ ∀ earlier < index, ¬ StopsAt span data earlier

/-! ## Tokens that stop the scan -/

def Stops (span : Span) (token : Token) : Prop :=
  ¬ token.line < span.start.line ∧ span.stop ≤ token.position

theorem FitsAt.stops_iff {span : Span} {data : List UInt32} {index : Nat}
    (fits : FitsAt data index) : (summedToken data index).Stops span ↔ StopsAt span data index := by
  obtain ⟨line, column⟩ := fits.reached
  simp only [Stops, StopsAt, Position.le_iff, UInt32.lt_iff_toNat_lt, UInt32.le_iff_toNat_le,
    Nat.not_lt, ← UInt32.toNat_inj, position, summedToken, line, column]

theorem checkedScan_append_of_stops {span : Span} {here : Position} {kept? : Option Position}
    {tokens : List Token} (rest : List UInt32) (ordered : InOrderFrom here tokens)
    (stops : ∃ token ∈ tokens, token.Stops span) :
    scanWith Word.sum? Word.difference? span here kept? (encodeFrom here tokens ++ rest) =
      scanWith Word.sum? Word.difference? span here kept? (encodeFrom here tokens) := by
  induction tokens generalizing here kept? with
  | nil =>
      obtain ⟨_, member, _⟩ := stops
      cases member
  | cons token tokens ih =>
      obtain ⟨first, behind⟩ := ordered
      simp only [encodeFrom_cons, List.append_assoc, scanWith_wordsAfter_append _ first]
      obtain ⟨last, member, notInFront, past⟩ := stops
      cases member with
      | head => simp only [notInFront, past, ↓reduceIte]
      | tail _ later => simp only [ih behind ⟨last, later, notInFront, past⟩]

/-- Once a token stops the scan, the part inside the span is that of the tokens in front of it. -/
theorem checkedExcerpt?_of_stopsAt {span : Span} {data : List UInt32} {index : Nat}
    (inside : index < tokenCount data) (stops : StopsAt span data index)
    (fits : ∀ earlier < index + 1, FitsAt data earlier) (rest : List UInt32) :
    checkedExcerpt? span (data.take (wordsPerToken * (index + 1)) ++ rest) =
      some (excerpt span (data.take (wordsPerToken * index))) := by
  have front : decode (data.take (wordsPerToken * index)) =
      .ok ((List.range index).map (summedToken data)) := by
    rw [decode_take (Nat.le_of_lt inside)]
    exact readFrom_of_fits fun earlier bound => fits earlier (Nat.lt_succ_of_lt bound)
  have scanned : decode (data.take (wordsPerToken * (index + 1))) =
      .ok ((List.range index).map (summedToken data) ++ [summedToken data index]) := by
    rw [decode_take inside, readFrom_of_fits fits, List.range_succ, List.map_append]
    rfl
  generalize (List.range index).map (summedToken data) = leading at front scanned
  have last : (summedToken data index).Stops span :=
    (fits index (Nat.lt_succ_self index)).stops_iff.mpr stops
  have leftOut : clip span [summedToken data index] = [] :=
    clip_eq_nil_of_stop_le fun token member => List.mem_singleton.mp member ▸ last.2
  obtain ⟨ordered, written⟩ := eq_encode_of_decode scanned
  calc checkedExcerpt? span (data.take (wordsPerToken * (index + 1)) ++ rest)
    _ = checkedExcerpt? span (data.take (wordsPerToken * (index + 1))) := by
        rw [written]
        exact checkedScan_append_of_stops rest (inOrder_iff_inOrderFrom_origin.mp ordered)
          ⟨_, List.mem_append_right _ (List.mem_singleton_self _), last⟩
    _ = some (encode (clip span leading)) := by
        rw [checkedExcerpt?_of_decode scanned, clip_append, leftOut, List.append_nil]
    _ = some (excerpt span (data.take (wordsPerToken * index))) := by
        rw [excerpt_of_decode span front]

theorem exists_firstStop {span : Span} {data : List UInt32}
    (stops : ∃ index < tokenCount data, StopsAt span data index) :
    ∃ index, FirstStop span data index := by
  obtain ⟨inside, stopsThere⟩ := Nat.find_spec stops
  refine ⟨Nat.find stops, inside, stopsThere, ?_⟩
  intro earlier before stopsEarlier
  exact Nat.find_min stops before ⟨Nat.lt_trans before inside, stopsEarlier⟩

/-- In an array of whole tokens let the sums up to the first token that stops the scan for a span be
words, or all sums when no token does. Then no sum or difference on the way to the part inside the
span leaves the words. The part is that of the tokens in front of the one that stops the scan, and
stays the same whatever words follow that one. -/
theorem excerpt_of_fits {span : Span} {data : List UInt32}
    (whole : data.length % wordsPerToken = 0)
    (fits : ∀ index < tokenCount data,
      (∀ earlier < index, ¬ StopsAt span data earlier) → FitsAt data index) :
    checkedExcerpt? span data = some (excerpt span data) ∧
      ∀ index, FirstStop span data index →
        excerpt span data = excerpt span (data.take (wordsPerToken * index)) ∧
          ∀ rest, excerpt span (data.take (wordsPerToken * (index + 1)) ++ rest) =
            excerpt span data := by
  have stopped : ∀ index, FirstStop span data index → ∀ rest,
      checkedExcerpt? span (data.take (wordsPerToken * (index + 1)) ++ rest) =
        some (excerpt span (data.take (wordsPerToken * index))) := by
    intro index first
    obtain ⟨inside, stops, isFirst⟩ := first
    apply checkedExcerpt?_of_stopsAt inside stops
    intro earlier bound
    apply fits earlier (by omega)
    intro sooner before
    exact isFirst sooner (by omega)
  have stoppedHere : ∀ index, FirstStop span data index →
      checkedExcerpt? span data = some (excerpt span (data.take (wordsPerToken * index))) := by
    intro index first
    rw [← stopped index first (data.drop (wordsPerToken * (index + 1))), List.take_append_drop]
  constructor
  · by_cases stops : ∃ index < tokenCount data, StopsAt span data index
    · obtain ⟨index, first⟩ := exists_firstStop stops
      rw [excerpt_of_checked (stoppedHere index first), stoppedHere index first]
    · have all : ∀ index < tokenCount data, FitsAt data index := by
        intro index inside
        apply fits index inside
        intro earlier before stopsEarlier
        exact stops ⟨earlier, Nat.lt_trans before inside, stopsEarlier⟩
      have accepted := (decode_of_whole whole).trans (readFrom_of_fits all)
      rw [checkedExcerpt?_of_decode accepted, excerpt_of_decode span accepted]
  · intro index first
    have here := excerpt_of_checked (stoppedHere index first)
    exact ⟨here, fun rest => (excerpt_of_checked (stopped index first rest)).trans here.symm⟩

/-- The fourth token passes the greatest line, so the array cannot be read. The third stops the scan
for a span that ends in front of it, and for a span that runs backwards, where the second token lies
behind the end and does not stop the scan yet. -/
theorem excerpt_of_fits_unreadable :
    let data : List UInt32 :=
      [0, 0, 4, 1, 0, 0, 7, 2, 0, 0, 1, 6, 3, 2, 0, 4294967295, 0, 1, 0, 0]
    let forward : Span := ⟨⟨0, 2⟩, ⟨1, 5⟩⟩
    let backward : Span := ⟨⟨1, 0⟩, ⟨0, 3⟩⟩
    decode data = .error (.positionOverflow 3) ∧
      FirstStop forward data 2 ∧ FirstStop backward data 2 ∧
      checkedExcerpt? forward data = some [0, 2, 2, 1, 0, 0, 5, 2, 0, 0] ∧
      checkedExcerpt? backward data = some [] ∧
      ∀ rest, excerpt forward (data.take 15 ++ rest) = [0, 2, 2, 1, 0, 0, 5, 2, 0, 0] := by
  intro data forward backward
  have whole : data.length % wordsPerToken = 0 := by decide
  have unreadable : decode data = .error (.positionOverflow 3) := by decide
  have forwardStops : FirstStop forward data 2 := ⟨by decide, by decide, by decide⟩
  have backwardStops : FirstStop backward data 2 := ⟨by decide, by decide, by decide⟩
  obtain ⟨forwardSafe, forwardLocal⟩ := @excerpt_of_fits forward data whole (by decide)
  obtain ⟨backwardSafe, _⟩ := @excerpt_of_fits backward data whole (by decide)
  obtain ⟨_, whatever⟩ := forwardLocal 2 forwardStops
  have part : excerpt forward data = [0, 2, 2, 1, 0, 0, 5, 2, 0, 0] := by decide
  have nothing : excerpt backward data = [] := by decide
  exact ⟨unreadable, forwardStops, backwardStops, part ▸ forwardSafe, nothing ▸ backwardSafe,
    fun rest => (whatever rest).trans part⟩

end SemanticHighlight.Token
