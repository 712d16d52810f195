import SemanticHighlight.Draft

/-!
# A draft writes the tokens that were pushed

The array of a draft is the writing of the tokens handed over so far, in whatever order they came.
-/

set_option autoImplicit false

namespace SemanticHighlight

/-- The tokens of those pushes that hand one over. -/
def Push.accepted (legend : Legend) (pushes : List Push) : List Token :=
  pushes.filterMap fun item => (item.resolve legend).toOption

namespace Push

theorem accepted_cons_of_ok {legend : Legend} {item : Push} {token : Token}
    (resolved : item.resolve legend = .ok token) (pushes : List Push) :
    accepted legend (item :: pushes) = token :: accepted legend pushes :=
  List.filterMap_cons_some (by rw [resolved]; rfl)

theorem accepted_cons_of_error {legend : Legend} {item : Push} {fault : Fault}
    (refused : item.resolve legend = .error fault) (pushes : List Push) :
    accepted legend (item :: pushes) = accepted legend pushes :=
  List.filterMap_cons_none (by rw [refused]; rfl)

end Push

namespace Draft

/-- A draft holds the array of some tokens, and where the last of them began. -/
structure Writes (draft : Draft) (tokens : List Token) : Prop where
  data : draft.data.toList = Token.encode tokens
  last : draft.last = (tokens.getLast?.map Token.position).getD .origin

theorem writes_empty : empty.Writes [] :=
  ⟨rfl, rfl⟩

theorem data_add (draft : Draft) (token : Token) :
    (draft.add token).data.toList =
      draft.data.toList ++
        token.wordsAfter (if draft.data.isEmpty then .origin else draft.last) := by
  unfold add Token.wordsAfter
  split
  · simp [Position.origin]
  · simp

theorem Writes.add {draft : Draft} {tokens : List Token} (writes : draft.Writes tokens)
    (token : Token) : (draft.add token).Writes (tokens ++ [token]) := by
  have front : (if draft.data.isEmpty then Position.origin else draft.last) = draft.last := by
    split
    · rename_i none
      have nothing : tokens = [] := by
        have written := writes.data
        rw [Array.isEmpty_iff.mp none] at written
        cases tokens with
        | nil => rfl
        | cons first tokens => simp [Token.encode, Token.wordsAfter] at written
      rw [writes.last, nothing]
      rfl
    · rfl
  constructor
  · rw [data_add, front, writes.data, writes.last, Token.encode, Token.encode,
      Token.encodeFrom_append, Token.encodeFrom_cons, Token.encodeFrom_nil, List.append_nil]
  · rw [List.getLast?_append, List.getLast?_singleton]
    rfl

theorem Writes.pushEach {legend : Legend} {draft : Draft} {tokens : List Token}
    (writes : draft.Writes tokens) (pushes : List Push) :
    (draft.pushEach legend pushes).2.Writes (tokens ++ Push.accepted legend pushes) := by
  induction pushes generalizing draft tokens with
  | nil =>
      rw [Push.accepted, List.filterMap_nil, List.append_nil]
      exact writes
  | cons item pushes ih =>
      unfold Draft.pushEach push
      cases resolved : item.resolve legend with
      | error fault =>
          rw [Push.accepted_cons_of_error resolved]
          exact ih writes
      | ok token =>
          have grown := ih (writes.add token)
          rw [List.append_assoc] at grown
          rw [Push.accepted_cons_of_ok resolved]
          exact grown

theorem Writes.pushAll {legend : Legend} {draft grown : Draft} {tokens : List Token}
    {pushes : List Push} (writes : draft.Writes tokens)
    (succeeded : (draft.pushAll legend pushes).result = .ok grown) :
    grown.Writes (tokens ++ Push.accepted legend pushes) := by
  induction pushes generalizing draft tokens with
  | nil =>
      cases succeeded
      rw [Push.accepted, List.filterMap_nil, List.append_nil]
      exact writes
  | cons item pushes ih =>
      unfold Draft.pushAll push at succeeded
      cases resolved : item.resolve legend with
      | error fault =>
          rw [resolved] at succeeded
          cases succeeded
      | ok token =>
          rw [resolved] at succeeded
          have later := ih (writes.add token) succeeded
          rw [List.append_assoc] at later
          rw [Push.accepted_cons_of_ok resolved]
          exact later

/-- Pushes are done to the end just when none of them is refused. -/
theorem pushAll_succeeds_iff {legend : Legend} {draft : Draft} {pushes : List Push} :
    (∃ grown, (draft.pushAll legend pushes).result = .ok grown) ↔
      ∀ item ∈ pushes, (item.resolve legend).isOk = true := by
  induction pushes generalizing draft with
  | nil => simp [pushAll]
  | cons item pushes ih =>
      rw [List.forall_mem_cons, pushAll, push]
      cases item.resolve legend with
      | error fault => simp [Except.map, Except.isOk, Except.toBool]
      | ok token => simpa [Except.map, Except.isOk, Except.toBool] using ih

theorem Writes.whole {draft : Draft} {tokens : List Token} (writes : draft.Writes tokens) :
    draft.data.toList.length % wordsPerToken = 0 := by
  rw [writes.data, Token.encode, Token.length_encodeFrom, Nat.mul_mod_right]

theorem Writes.tokenCount_eq {draft : Draft} {tokens : List Token} (writes : draft.Writes tokens) :
    draft.tokenCount = tokens.length := by
  rw [tokenCount, ← Array.length_toList, writes.data, Token.encode, Token.length_encodeFrom]
  exact Nat.mul_div_cancel_left _ (by decide)

end Draft

end SemanticHighlight
