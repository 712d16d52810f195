import SemanticHighlight.Proofs.Document.Stable
import SemanticHighlight.Proofs.Token.Excerpt

/-!
# What documents keep can be read

As long as tokens are pushed in order, the array of a document and its base are arrays that
`decode` accepts, and so is every array that the document answers. No word leaves its range while a
part is cut out. Edits count the words of a base in words, so they lead to an array that `decode`
accepts as long as the base is short enough for that.
-/

set_option autoImplicit false

namespace SemanticHighlight

/-- An array from which tokens in order can be read. -/
def Token.Readable (data : List UInt32) : Prop :=
  ∃ tokens, Token.decode data = .ok tokens ∧ Token.InOrder tokens

namespace Token

theorem readable_nil : Readable [] :=
  ⟨[], rfl, .nil⟩

theorem readable_encode {tokens : List Token} (ordered : InOrder tokens) :
    Readable (encode tokens) :=
  ⟨tokens, decode_encode ordered, ordered⟩

theorem Readable.whole {data : List UInt32} (readable : Readable data) :
    data.length % wordsPerToken = 0 := by
  obtain ⟨tokens, accepted, _⟩ := readable
  exact (decode_eq_ok_iff.mp accepted).1

theorem Readable.excerpt {data : List UInt32} (readable : Readable data) (span : Span) :
    checkedExcerpt? span data = some (Token.excerpt span data) ∧
      Readable (Token.excerpt span data) := by
  obtain ⟨tokens, accepted, ordered⟩ := readable
  rw [excerpt_of_decode span accepted]
  exact ⟨checkedExcerpt?_of_decode accepted, readable_encode (inOrder_clip span ordered)⟩

end Token

/-- The edits can be made on an array, and they lead to one that can be read. -/
def Edit.LeadToReadable (base : List UInt32) (edits : List Edit) : Prop :=
  ∃ patched, applyAll base edits = .ok patched ∧ Token.Readable patched

namespace Document

structure Readable (document : Document) : Prop where
  data : Token.Readable document.data
  base : ∀ base, document.base = some base → Token.Readable base

/-- Whatever a document is asked for, the arrays that it answers can be read, and a part is cut out
without a sum or a difference that is no word. -/
structure AnswersReadably (document : Document) : Prop where
  full : Token.Readable document.full.1.data
  part : ∀ span, Token.checkedExcerpt? span document.data = some (document.part span).1.data ∧
    Token.Readable (document.part span).1.data
  edits : ∀ snapshot, document.edits.1 = .full snapshot → Token.Readable snapshot.data

theorem Readable.answersReadably {document : Document} (readable : document.Readable) :
    document.AnswersReadably where
  full := readable.data
  part := readable.data.excerpt
  edits := by
    intro snapshot answered
    cases held : document.base with
    | none =>
        rw [edits_of_no_base held] at answered
        cases answered
        exact readable.data
    | some base =>
        rw [edits_of_base held] at answered
        cases answered

/-- A delta of a document leads from its base to an array that can be read, as long as the base is
no longer than words can count. -/
theorem Readable.leadToReadable {document : Document} (readable : document.Readable)
    {edited : Delta} (answered : document.edits.1 = .delta edited) :
    ∃ base, document.base = some base ∧
      (base.length < UInt32.size → Edit.LeadToReadable base edited.edits) := by
  cases held : document.base with
  | none =>
      rw [edits_of_no_base held] at answered
      cases answered
  | some base =>
      rw [edits_of_base held] at answered
      cases answered
      refine ⟨base, rfl, fun fits => ?_⟩
      exact ⟨_, Edit.applyAll_between fits readable.data.whole, readable.data⟩

def Step.InOrder (legend : Legend) (step : Step) : Prop :=
  Token.InOrder (Push.accepted legend step.pushes)

instance (legend : Legend) (step : Step) : Decidable (step.InOrder legend) :=
  inferInstanceAs (Decidable (Token.InOrder _))

theorem readable_pushEach {legend : Legend} {pushes : List Push}
    (ordered : Token.InOrder (Push.accepted legend pushes)) :
    Token.Readable (Draft.empty.pushEach legend pushes).2.data.toList := by
  rw [(Draft.writes_empty.pushEach pushes).data]
  exact Token.readable_encode ordered

theorem stable_readable (legend : Legend) :
    Stable legend (fun draft => Token.Readable draft.data.toList)
      (fun document => document.legend = legend ∧ document.Readable) where
  ofLegend held := held.1
  new _ := ⟨rfl, Token.readable_nil, fun _ impossible => by cases impossible⟩
  create _ held := ⟨held.1, held.2.data, fun _ impossible => by cases impossible⟩
  -- The base is an array that the document had, and those can be read.
  rebase held := by
    refine ⟨held.1, held.2.data, fun base taken => ?_⟩
    cases taken
    exact held.2.data
  unbase held := ⟨held.1, held.2.data, fun _ impossible => by cases impossible⟩
  commit held written := ⟨held.1, written, held.2.base⟩

theorem readable_run (legend : Legend) (id : String) {steps : List (String × Step)}
    (ordered : ∀ step ∈ steps, step.2.InOrder legend) :
    ((new legend id).run steps).Readable := by
  have stable := stable_readable legend
  exact (stable.run (stable.new id) fun step member => readable_pushEach (ordered step member)).2

end Document

/-! ## A base that is too long for words to count -/

/-- Tokens with nothing in them at the text's beginning are written as zeros. -/
theorem Token.encode_blanks_append (count : Nat) (tokens : List Token) :
    encode (List.replicate count ⟨0, 0, 0, 0, 0⟩ ++ tokens) =
      List.replicate (wordsPerToken * count) 0 ++ encode tokens := by
  induction count with
  | zero => rfl
  | succ count ih =>
      have first : List.replicate (wordsPerToken * (count + 1)) (0 : UInt32) =
          [0, 0, 0, 0, 0] ++ List.replicate (wordsPerToken * count) 0 := by
        rw [Nat.mul_succ, Nat.add_comm, ← List.replicate_append_replicate]
        rfl
      rw [first, List.append_assoc, ← ih]
      rfl

namespace Document

/-- Tokens with nothing in them, and two behind them that have a line and a column. -/
def lengthening (count : Nat) : List Token :=
  List.replicate count ⟨0, 0, 0, 0, 0⟩ ++ [⟨0, 1, 0, 0, 0⟩, ⟨1, 4294967295, 0, 0, 0⟩]

/-- Encodes tokens with nothing in them, and then two more behind them. -/
def lengthen (count : Nat) : List (String × Step) :=
  [("b", .create ((List.replicate count ⟨0, 0, 0, 0, 0⟩).map .token) true),
    ("c", .edit "b" ((lengthening count).map .token) true)]

theorem accepted_map_token (legend : Legend) (tokens : List Token) :
    Push.accepted legend (tokens.map .token) = tokens := by
  rw [Push.accepted, List.filterMap_map]
  exact List.filterMap_some

theorem inOrder_lengthening (count : Nat) : Token.InOrder (lengthening count) := by
  refine List.pairwise_append.mpr ⟨?_, by decide, ?_⟩
  · exact List.pairwise_replicate.mpr (.inr (by decide))
  · intro blank member later _
    rw [List.eq_of_mem_replicate member]
    exact Position.origin_le _

theorem inOrder_lengthen (count : Nat) :
    ∀ step ∈ lengthen count, step.2.InOrder ⟨[], []⟩ := by
  have blanks : Token.InOrder (List.replicate count ⟨0, 0, 0, 0, 0⟩) :=
    (List.pairwise_append.mp (inOrder_lengthening count)).1
  intro step member
  simp only [lengthen, List.mem_cons, List.not_mem_nil, or_false] at member
  rcases member with rfl | rfl
  · simpa only [Step.InOrder, Step.pushes, accepted_map_token] using blanks
  · simpa only [Step.InOrder, Step.pushes, accepted_map_token] using inOrder_lengthening count

theorem data_pushEach_map_token (legend : Legend) (tokens : List Token) :
    (Draft.empty.pushEach legend (tokens.map .token)).2.data.toList = Token.encode tokens := by
  rw [(Draft.writes_empty.pushEach _).data, List.nil_append, accepted_map_token]

theorem run_lengthen (count : Nat) :
    (new ⟨[], []⟩ "a").run (lengthen count) =
      ⟨⟨[], []⟩, "b",
        List.replicate (wordsPerToken * count) 0 ++ [0, 1, 0, 0, 0, 1, 4294967295, 0, 0, 0],
        some (List.replicate (wordsPerToken * count) 0)⟩ := by
  have blanks : Token.encode (List.replicate count ⟨0, 0, 0, 0, 0⟩) =
      List.replicate (wordsPerToken * count) 0 := by
    have written := Token.encode_blanks_append count []
    rwa [List.append_nil, Token.encode, Token.encode, Token.encodeFrom_nil, List.append_nil]
      at written
  have behind : Token.encode [⟨0, 1, 0, 0, 0⟩, ⟨1, 4294967295, 0, 0, 0⟩] =
      [0, 1, 0, 0, 0, 1, 4294967295, 0, 0, 0] := by
    decide
  simp only [lengthen, run, List.foldl_cons, List.foldl_nil, perform, encode, commit, create, new,
    edit, data_pushEach_map_token, blanks, lengthening, Token.encode_blanks_append, behind,
    ↓reduceIte]

section Shifted

variable {rest : List UInt32} (whole : rest.length % wordsPerToken = 0)

include whole

theorem checkWholeTokens_shifted :
    checkWholeTokens ([0, 0, 0, 0, 0, 1, 0, 0, 0, 1, 4294967295, 0, 0, 0, 0] ++ rest) =
      .ok () := by
  rw [checkWholeTokens_eq_ok_iff, List.length_append, Nat.add_mod, whole]
  rfl

theorem applyAll_shifted :
    Edit.applyAll ([0, 0, 0, 0, 0] ++ rest) [⟨4, 0, [0, 1, 0, 0, 0, 1, 4294967295, 0, 0, 0]⟩] =
      .ok ([0, 0, 0, 0, 0, 1, 0, 0, 0, 1, 4294967295, 0, 0, 0, 0] ++ rest) := by
  have made : Edit.applyInTurn ([0, 0, 0, 0, 0] ++ rest)
      [⟨4, 0, [0, 1, 0, 0, 0, 1, 4294967295, 0, 0, 0]⟩] =
        .ok ([0, 0, 0, 0, 0, 1, 0, 0, 0, 1, 4294967295, 0, 0, 0, 0] ++ rest) := by
    rw [Edit.applyInTurn_cons, Edit.apply_eq_ok_iff.mpr ⟨by simp, rfl⟩]
    rfl
  rw [Edit.applyAll, made]
  simp only [bind, Except.bind, checkWholeTokens_shifted whole]
  rfl

theorem decode_shifted :
    Token.decode ([0, 0, 0, 0, 0, 1, 0, 0, 0, 1, 4294967295, 0, 0, 0, 0] ++ rest) =
      .error (.positionOverflow 2) := by
  rw [Token.decode, checkWholeTokens_shifted whole]
  rfl

end Shifted

/-- Where the words come round again, the edit is made too far in front, and puts a column where a
number of lines is read. -/
theorem decode_of_lengthen {count : Nat} (wrapped : UInt32.ofNat (wordsPerToken * count) = 4)
    (long : wordsPerToken ≤ wordsPerToken * count) :
    ∃ edited base patched,
      ((new ⟨[], []⟩ "a").run (lengthen count)).edits.1 = .delta edited ∧
        ((new ⟨[], []⟩ "a").run (lengthen count)).base = some base ∧
          Edit.applyAll base edited.edits = .ok patched ∧
            Token.decode patched = .error (.positionOverflow 2) := by
  rw [run_lengthen, edits_of_base rfl, Edit.between_append _ (by decide), List.length_replicate,
    wrapped]
  obtain ⟨rest, size⟩ := Nat.exists_eq_add_of_le long
  have base_eq : List.replicate (wordsPerToken * count) (0 : UInt32) =
      [0, 0, 0, 0, 0] ++ List.replicate rest 0 := by
    rw [size, ← List.replicate_append_replicate]
    rfl
  have whole : (List.replicate rest (0 : UInt32)).length % wordsPerToken = 0 := by
    rw [List.length_replicate]
    simp only [wordsPerToken] at size ⊢
    omega
  rw [base_eq]
  exact ⟨_, _, _, rfl, rfl, applyAll_shifted whole, decode_shifted whole⟩

end Document

end SemanticHighlight
