import SemanticHighlight.Proofs.Document.Stable
import SemanticHighlight.Proofs.Token.RoundTrip

/-!
# What an encoding commits

An encoding is filled by pushes of several kinds, some of which are refused. What it commits is the
array of the tokens it took on, and a refused push leaves no trace in it.
-/

set_option autoImplicit false

namespace SemanticHighlight

namespace Push

/-! ## What a push hands over -/

/-- The token of a push. A span has one when it stays on its line and does not run backwards. -/
inductive HandsOver (legend : Legend) : Push → Token → Prop where
  | token {given : Token} : HandsOver legend (.token given) given
  | typed {line start length : UInt32} {tokenType : Option TokenType}
      {modifiers : List Modifier} :
      HandsOver legend (.typed line start length tokenType modifiers)
        ⟨line, start, length, legend.optionalTypeId tokenType,
          legend.modifierMask (modifiers.map Modifier.name)⟩
  | named {line start length : UInt32} {typeName : String} {modifiers : List String} :
      HandsOver legend (.named line start length typeName modifiers)
        ⟨line, start, length, legend.typeId typeName, legend.modifierMask modifiers⟩
  | typedSpan {span : Span} {tokenType : Option TokenType} {modifiers : List Modifier}
      (sameLine : span.start.line = span.stop.line)
      (forward : span.start.character ≤ span.stop.character) :
      HandsOver legend (.typedSpan span tokenType modifiers)
        ⟨span.start.line, span.start.character, span.stop.character - span.start.character,
          legend.optionalTypeId tokenType, legend.modifierMask (modifiers.map Modifier.name)⟩
  | encodedSpan {span : Span} {typeId modifiers : UInt32}
      (sameLine : span.start.line = span.stop.line)
      (forward : span.start.character ≤ span.stop.character) :
      HandsOver legend (.encodedSpan span typeId modifiers)
        ⟨span.start.line, span.start.character, span.stop.character - span.start.character,
          typeId, modifiers⟩

inductive Refused : Push → Fault → Prop where
  | typedSpan {span : Span} {tokenType : Option TokenType} {modifiers : List Modifier}
      (outside : span.start.line ≠ span.stop.line ∨
        span.stop.character < span.start.character) :
      Refused (.typedSpan span tokenType modifiers) (.invalidSpan span)
  | encodedSpan {span : Span} {typeId modifiers : UInt32}
      (outside : span.start.line ≠ span.stop.line ∨
        span.stop.character < span.start.character) :
      Refused (.encodedSpan span typeId modifiers) (.invalidSpan span)
  | fail {cause : Fault} : Refused (.fail cause) cause

theorem spanLength_eq_ok_iff {span : Span} {length : UInt32} :
    spanLength span = .ok length ↔
      (span.start.line = span.stop.line ∧ span.start.character ≤ span.stop.character) ∧
        span.stop.character - span.start.character = length := by
  rw [← Span.length?_eq_some_iff, spanLength]
  cases span.length? with
  | none => simp only [reduceCtorEq]
  | some covered => simp only [Except.ok.injEq, Option.some.injEq]

theorem spanLength_eq_error_iff {span : Span} {fault : Fault} :
    spanLength span = .error fault ↔
      (span.start.line ≠ span.stop.line ∨ span.stop.character < span.start.character) ∧
        fault = .invalidSpan span := by
  rw [← Span.length?_eq_none_iff, spanLength]
  cases span.length? with
  | none =>
      simp only [Except.error.injEq, true_and]
      exact eq_comm
  | some length => simp only [reduceCtorEq, false_and]

theorem resolve_eq_ok_iff {legend : Legend} {item : Push} {token : Token} :
    item.resolve legend = .ok token ↔ item.HandsOver legend token := by
  constructor
  · intro resolved
    cases item with
    | token given => cases resolved; exact .token
    | typed line start length tokenType modifiers => cases resolved; exact .typed
    | named line start length typeName modifiers => cases resolved; exact .named
    | typedSpan span tokenType modifiers =>
        obtain ⟨length, fits, rfl⟩ := Fault.map_eq_ok_iff.mp resolved
        obtain ⟨⟨sameLine, forward⟩, rfl⟩ := spanLength_eq_ok_iff.mp fits
        exact .typedSpan sameLine forward
    | encodedSpan span typeId modifiers =>
        obtain ⟨length, fits, rfl⟩ := Fault.map_eq_ok_iff.mp resolved
        obtain ⟨⟨sameLine, forward⟩, rfl⟩ := spanLength_eq_ok_iff.mp fits
        exact .encodedSpan sameLine forward
    | fail cause => cases resolved
  · intro handsOver
    cases handsOver with
    | token | typed | named => rfl
    | typedSpan sameLine forward | encodedSpan sameLine forward =>
        exact Fault.map_eq_ok_iff.mpr
          ⟨_, spanLength_eq_ok_iff.mpr ⟨⟨sameLine, forward⟩, rfl⟩, rfl⟩

theorem resolve_eq_error_iff {legend : Legend} {item : Push} {fault : Fault} :
    item.resolve legend = .error fault ↔ item.Refused fault := by
  constructor
  · intro resolved
    cases item with
    | token | typed | named => cases resolved
    | typedSpan span tokenType modifiers =>
        obtain ⟨outside, rfl⟩ := spanLength_eq_error_iff.mp (Fault.map_eq_error_iff.mp resolved)
        exact .typedSpan outside
    | encodedSpan span typeId modifiers =>
        obtain ⟨outside, rfl⟩ := spanLength_eq_error_iff.mp (Fault.map_eq_error_iff.mp resolved)
        exact .encodedSpan outside
    | fail cause => cases resolved; exact .fail
  · intro refused
    cases refused with
    | typedSpan outside | encodedSpan outside =>
        exact Fault.map_eq_error_iff.mpr (spanLength_eq_error_iff.mpr ⟨outside, rfl⟩)
    | fail => rfl

end Push

/-! ## Pushes in turn -/

namespace Draft

theorem pushEach_cons (legend : Legend) (draft : Draft) (item : Push) (pushes : List Push) :
    draft.pushEach legend (item :: pushes) =
      match item.resolve legend with
      | .error fault =>
          (.error fault :: (draft.pushEach legend pushes).1, (draft.pushEach legend pushes).2)
      | .ok token =>
          (.ok (draft.add token).tokenCount :: ((draft.add token).pushEach legend pushes).1,
            ((draft.add token).pushEach legend pushes).2) := by
  rw [pushEach, push]
  cases item.resolve legend <;> rfl

theorem pushEach_append (legend : Legend) (draft : Draft) (front later : List Push) :
    draft.pushEach legend (front ++ later) =
      ((draft.pushEach legend front).1 ++
          ((draft.pushEach legend front).2.pushEach legend later).1,
        ((draft.pushEach legend front).2.pushEach legend later).2) := by
  induction front generalizing draft with
  | nil => rfl
  | cons item front ih =>
      rw [List.cons_append, pushEach_cons, pushEach_cons]
      cases item.resolve legend with
      | error fault => simp only [ih, List.cons_append]
      | ok token => simp only [ih, List.cons_append]

theorem length_pushEach (legend : Legend) (draft : Draft) (pushes : List Push) :
    (draft.pushEach legend pushes).1.length = pushes.length := by
  induction pushes generalizing draft with
  | nil => rfl
  | cons item pushes ih =>
      rw [pushEach_cons]
      cases item.resolve legend with
      | error fault => simp only [List.length_cons, ih]
      | ok token => simp only [List.length_cons, ih]

theorem pushEach_append_refused {legend : Legend} {item : Push} {fault : Fault}
    (refused : item.Refused fault) (draft : Draft) (front later : List Push) :
    (draft.pushEach legend (front ++ item :: later)).2 =
      (draft.pushEach legend (front ++ later)).2 := by
  rw [pushEach_append, pushEach_append, pushEach_cons, Push.resolve_eq_error_iff.mpr refused]

/-- A push is told how many tokens there are with its own, or why it was refused. -/
theorem Writes.getElem?_pushEach {draft : Draft} {tokens : List Token}
    (writes : draft.Writes tokens) (legend : Legend) {pushes : List Push} {index : Nat} {item : Push}
    (stands : pushes[index]? = some item) :
    (draft.pushEach legend pushes).1[index]? =
      some ((item.resolve legend).map fun _ =>
        tokens.length + (Push.accepted legend (pushes.take (index + 1))).length) := by
  induction pushes generalizing draft tokens index with
  | nil => cases stands
  | cons first pushes ih =>
      rw [pushEach_cons, List.take_succ_cons]
      cases resolved : first.resolve legend with
      | error fault =>
          rw [Push.accepted_cons_of_error resolved]
          cases index with
          | zero =>
              cases stands
              rw [resolved]
              rfl
          | succ index => exact ih writes stands
      | ok token =>
          -- The later pushes are told of the tokens in front of them, this one among them.
          have grown := writes.add token
          rw [Push.accepted_cons_of_ok resolved, List.length_cons]
          cases index with
          | zero =>
              cases stands
              rw [resolved, List.getElem?_cons_zero, grown.tokenCount_eq, List.length_append]
              rfl
          | succ index =>
              have told := ih grown stands
              rw [List.length_append, List.length_singleton, Nat.add_assoc, Nat.add_comm 1] at told
              exact told

end Draft

namespace Document

/-- An encoding has begun in a document, as a new one or as an edit. -/
def Begins (document begun : Document) : Prop :=
  ∃ fresh, begun = document.create fresh ∨ ∃ previous, begun = document.edit fresh previous

theorem Begins.legend {document begun : Document} (begins : document.Begins begun) :
    begun.legend = document.legend := by
  obtain ⟨fresh, rfl | ⟨previous, rfl⟩⟩ := begins
  · rfl
  · exact (stable_legend document.legend).edit rfl fresh previous

theorem encode_of_begins {document begun : Document} (begins : document.Begins begun)
    (pushes : List Push) :
    begun.encode pushes true =
      (.drafted (Draft.empty.pushEach document.legend pushes).1,
        begun.commit (Draft.empty.pushEach document.legend pushes).2) := by
  rw [encode, begins.legend]
  rfl

/-- However an encoding begins, it commits the array of the tokens that were handed over, from
which they are read again. Each push is told how many there are by then, or why it was refused, and
one that was refused might as well not have been made. -/
theorem encode_commits_accepted {document : Document} {pushes : List Push}
    (ordered : Token.InOrder (Push.accepted document.legend pushes)) :
    let legend := document.legend
    let tokens := Push.accepted legend pushes
    (∀ begun, document.Begins begun →
      ∃ results committed, begun.encode pushes true = (.drafted results, committed) ∧
        committed.data = Token.encode tokens ∧ Token.decode committed.data = .ok tokens ∧
        results.length = pushes.length ∧
        ∀ (index : Nat) (item : Push), pushes[index]? = some item →
          results[index]? = some ((item.resolve legend).map fun _ =>
            (Push.accepted legend (pushes.take (index + 1))).length)) ∧
      (∀ made : List Push,
        (Draft.empty.pushEach legend made).2.tokenCount = (Push.accepted legend made).length) ∧
      (∀ (item : Push) (token : Token),
        item.resolve legend = .ok token ↔ item.HandsOver legend token) ∧
      (∀ (item : Push) (fault : Fault), item.resolve legend = .error fault ↔ item.Refused fault) ∧
      ∀ (draft : Draft) (front later : List Push) (item : Push) (fault : Fault),
        item.Refused fault →
          (draft.pushEach legend (front ++ item :: later)).2 =
            (draft.pushEach legend (front ++ later)).2 := by
  intro legend tokens
  refine ⟨?_, ?_, ?_, ?_, ?_⟩
  · intro begun begins
    have written : (Draft.empty.pushEach legend pushes).2.data.toList = Token.encode tokens :=
      (Draft.writes_empty.pushEach pushes).data
    refine ⟨_, _, encode_of_begins begins pushes, written, ?_,
      Draft.length_pushEach legend _ pushes, ?_⟩
    · change Token.decode (Draft.empty.pushEach legend pushes).2.data.toList = .ok tokens
      rw [written]
      exact Token.decode_encode ordered
    · intro index item stands
      have told := Draft.writes_empty.getElem?_pushEach legend stands
      simpa only [List.length_nil, Nat.zero_add] using told
  · intro made
    exact (Draft.writes_empty.pushEach made).tokenCount_eq
  · intro item token
    exact Push.resolve_eq_ok_iff
  · intro item fault
    exact Push.resolve_eq_error_iff
  · intro draft front later item fault refused
    exact Draft.pushEach_append_refused refused draft front later

/-- A named token, a span over two lines, a span that runs backwards, and a token at the place of
the one in front. -/
theorem encode_commits_accepted_between_refused :
    let document := new (.ofNames ["keyword", "string"] ["static", "readonly"]) "a"
    let broken : Span := ⟨⟨3, 1⟩, ⟨4, 9⟩⟩
    let pushes : List Push :=
      [.named 3 1 4 "string" ["readonly", "static"], .typedSpan broken none [],
        .encodedSpan (.onLine 3 9 2) 1 0, .typedSpan (.onLine 3 1 8) (some ⟨"keyword"⟩) [⟨"static"⟩]]
    let tokens : List Token := [⟨3, 1, 4, 1, 3⟩, ⟨3, 1, 7, 0, 1⟩]
    Token.InOrder (Push.accepted document.legend pushes) ∧
      ∃ results committed,
        (document.edit "b" "a").encode pushes true = (.drafted results, committed) ∧
          committed.data = [3, 1, 4, 1, 3, 0, 0, 7, 0, 1] ∧
          Token.decode committed.data = .ok tokens ∧
          results[1]? = some (.error (.invalidSpan broken)) ∧ results[3]? = some (.ok 2) := by
  intro document broken pushes tokens
  have ordered : Token.InOrder (Push.accepted document.legend pushes) := by decide
  obtain ⟨results, committed, encoded, written, read, _, told⟩ :=
    (encode_commits_accepted ordered).1 _ ⟨"b", Or.inr ⟨"a", rfl⟩⟩
  have handedOver : Push.accepted document.legend pushes = tokens := by decide
  rw [handedOver] at written read
  exact ⟨ordered, results, committed, encoded, written, read, told 1 _ rfl, told 3 _ rfl⟩

end Document

end SemanticHighlight
