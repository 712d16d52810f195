import SemanticHighlight.Proofs.Edit.Between
import SemanticHighlight.Proofs.Workspace.Invariant

/-!
# All requests see the same tokens

Requests for everything, for a part and for edits run the same tokenizer on a document that has
some history. The array they commit depends on the tokens and the legend only, and each answers
with that array, with a part of it, or with the edit that leads to it.
-/

set_option autoImplicit false

namespace SemanticHighlight

/-- An answer brings an asker who holds `before` to `data`: as a whole, or by a single edit. -/
def Answer.Yields (before data : List UInt32) : Answer → Prop
  | .full snapshot => snapshot.data = data
  | .delta edited => ∃ edit, edited.edits = [edit] ∧ Edit.applyAll before [edit] = .ok data

namespace Workspace

/-- A URI is open, and this is the array that its document has committed. -/
def Shows (workspace : Workspace) (uri : String) (data : List UInt32) : Prop :=
  ∃ document, workspace.document? uri = some document ∧ document.data = data

/-- The array of a URI, which is empty while the URI is not open. -/
def dataOf (workspace : Workspace) (uri : String) : List UInt32 :=
  ((workspace.document? uri).map Document.data).getD []

theorem shows_put (workspace : Workspace) (uri : String) (document : Document) :
    (workspace.put uri document).Shows uri document.data :=
  ⟨document, document?_put_self workspace uri document, rfl⟩

theorem data_documentFor (workspace : Workspace) (fresh uri : String) :
    (workspace.documentFor fresh uri).data = workspace.dataOf uri := by
  unfold documentFor dataOf
  cases workspace.document? uri <;> rfl

section Requests

variable {workspace : Workspace} {fresh : FreshIds} {uri previous : String} {pushes : List Push}
  (own : workspace.All fun document => document.legend = workspace.legend)
  (succeeds : ∀ item ∈ pushes, (item.resolve workspace.legend).isOk = true)

include own succeeds

theorem exists_draft (fresh : FreshIds) (uri : String) :
    ∃ draft, (Draft.empty.pushAll (workspace.documentFor fresh.opened uri).legend pushes).result =
        .ok draft ∧
      draft.Writes (Push.accepted workspace.legend pushes) := by
  rw [own.documentFor (fun _ => rfl) fresh.opened uri]
  obtain ⟨draft, succeeded⟩ := Draft.pushAll_succeeds_iff.mpr succeeds
  exact ⟨draft, succeeded, Draft.writes_empty.pushAll succeeded⟩

theorem Renews.answered {α : Type} {answer : List UInt32 → α} {served : Response α × Workspace}
    (renews : workspace.Renews fresh uri pushes answer served) :
    let data := Token.encode (Push.accepted workspace.legend pushes)
    ∃ trace after, served = (⟨.ok (some (answer data)), some trace⟩, after) ∧
      after.Shows uri data := by
  intro data
  obtain ⟨draft, succeeded, writes⟩ := exists_draft own succeeds fresh uri
  rcases renews with ⟨fault, failed, _⟩ | ⟨other, alsoSucceeded, served⟩
  · rw [succeeded] at failed
    cases failed
  · rw [succeeded] at alsoSucceeded
    cases alsoSucceeded
    rw [writes.data] at served
    exact ⟨_, _, served, shows_put workspace uri _⟩

theorem full_answered
    (admitted : (workspace.settings.enabled && workspace.settings.full) = true) :
    let data := Token.encode (Push.accepted workspace.legend pushes)
    ∃ resultId trace after,
      workspace.full fresh uri pushes = (⟨.ok (some ⟨resultId, data⟩), trace⟩, after) ∧
        after.Shows uri data := by
  obtain ⟨trace, after, served, shows⟩ := (renews_full admitted).answered own succeeds
  exact ⟨_, _, after, served, shows⟩

theorem part_answered {span : Span}
    (admitted : (workspace.settings.enabled && workspace.settings.range) = true) :
    let data := Token.encode (Push.accepted workspace.legend pushes)
    ∃ resultId trace after,
      workspace.part fresh uri span pushes =
          (⟨.ok (some ⟨resultId, Token.excerpt span data⟩), trace⟩, after) ∧
        after.Shows uri data := by
  obtain ⟨trace, after, served, shows⟩ := (renews_part admitted).answered own succeeds
  exact ⟨_, _, after, served, shows⟩

theorem fullDelta_answered_of_current (on : workspace.settings.delta = true)
    (enabled : workspace.settings.enabled = true)
    (current : previous = (workspace.documentFor fresh.opened uri).id)
    (short : (workspace.dataOf uri).length < UInt32.size) :
    let data := Token.encode (Push.accepted workspace.legend pushes)
    ∃ answer trace after,
      workspace.fullDelta fresh uri previous pushes = (⟨.ok (some answer), trace⟩, after) ∧
        answer.Yields (workspace.dataOf uri) data ∧ after.Shows uri data := by
  intro data
  obtain ⟨draft, succeeded, writes⟩ := exists_draft own succeeds fresh uri
  rcases fullDelta_cases_of_current on enabled current with
    ⟨fault, failed, _⟩ | ⟨other, alsoSucceeded, served⟩
  · rw [succeeded] at failed
    cases failed
  · rw [succeeded] at alsoSucceeded
    cases alsoSucceeded
    have whole := writes.whole
    rw [writes.data] at whole
    rw [writes.data, data_documentFor] at served
    exact ⟨_, _, _, served, ⟨_, rfl, Edit.applyAll_between short whole⟩,
      shows_put workspace uri _⟩

theorem fullDelta_answered
    (admitted : (workspace.settings.enabled &&
      (workspace.settings.delta || workspace.settings.full)) = true)
    (short : (workspace.dataOf uri).length < UInt32.size) :
    let data := Token.encode (Push.accepted workspace.legend pushes)
    ∃ answer trace after,
      workspace.fullDelta fresh uri previous pushes = (⟨.ok (some answer), trace⟩, after) ∧
        answer.Yields (workspace.dataOf uri) data ∧ after.Shows uri data := by
  obtain ⟨enabled, admitted⟩ := Bool.and_eq_true_iff.mp admitted
  cases delta : workspace.settings.delta with
  | false =>
      rw [delta, Bool.false_or] at admitted
      obtain ⟨resultId, trace, after, served, shows⟩ :=
        full_answered own succeeds (Bool.and_eq_true_iff.mpr ⟨enabled, admitted⟩)
      refine ⟨.full ⟨resultId, _⟩, trace, after, ?_, rfl, shows⟩
      rw [fullDelta_of_off delta, served]
      rfl
  | true =>
      by_cases current : previous = (workspace.documentFor fresh.opened uri).id
      · exact fullDelta_answered_of_current own succeeds delta enabled current short
      · obtain ⟨trace, after, served, shows⟩ :=
          (renews_fullDelta_of_stale delta enabled current).answered own succeeds
        exact ⟨_, _, after, served, rfl, shows⟩

end Requests

/-- Whatever was done before, a tokenizer that succeeds leads every kind of request to the one array
of its tokens: it is the answer to a request for all of them, its part is the answer to one for a
part, a request for edits leads there from the array before, and the document keeps it. -/
theorem requests_agree {start : Workspace} (blank : start.sessions = [])
    (calls : List (FreshIds × Call)) (uri : String) {pushes : List Push}
    (succeeds : ∀ item ∈ pushes, (item.resolve start.legend).isOk = true)
    (short : ((start.run calls).2.dataOf uri).length < UInt32.size) (fresh : FreshIds) :
    let workspace := (start.run calls).2
    let data := Token.encode (Push.accepted start.legend pushes)
    ((start.settings.enabled && start.settings.full) = true →
        ∃ resultId trace after,
          workspace.full fresh uri pushes = (⟨.ok (some ⟨resultId, data⟩), trace⟩, after) ∧
            after.Shows uri data) ∧
      ((start.settings.enabled && start.settings.range) = true → ∀ span,
        ∃ resultId trace after,
          workspace.part fresh uri span pushes =
              (⟨.ok (some ⟨resultId, Token.excerpt span data⟩), trace⟩, after) ∧
            after.Shows uri data) ∧
      ((start.settings.enabled && (start.settings.delta || start.settings.full)) = true →
        ∀ previous, ∃ answer trace after,
          workspace.fullDelta fresh uri previous pushes =
              (⟨.ok (some answer), trace⟩, after) ∧
            answer.Yields (workspace.dataOf uri) data ∧ after.Shows uri data) := by
  intro workspace data
  have sameLegend : workspace.legend = start.legend := legend_run start calls
  have sameSettings : workspace.settings = start.settings := settings_run start calls
  have own : workspace.All fun document => document.legend = workspace.legend := by
    rw [sameLegend]
    exact all_legend_run blank calls
  have sameData : data = Token.encode (Push.accepted workspace.legend pushes) := by
    rw [sameLegend]
  rw [← sameLegend] at succeeds
  rw [← sameSettings, sameData]
  refine ⟨fun admitted => ?_, fun admitted span => ?_, fun admitted previous => ?_⟩
  · exact full_answered own succeeds admitted
  · exact part_answered own succeeds admitted
  · exact fullDelta_answered own succeeds admitted short

/-- An encoding that failed has left a base behind, and the tokenizer changes a token. -/
theorem requests_agree_behind_failure :
    let start := ofLegend (.ofNames ["keyword", "string"] ["static"])
    let push (length : UInt32) := Push.named 1 4 length "string" ["static"]
    let calls : List (FreshIds × Call) :=
      [(⟨"a", "b"⟩, .full "left" [push 3]),
        (⟨"c", "d"⟩, .fullDelta "left" "b" [push 7, .fail .rangeUnsupported])]
    let pushes := [push 6, .encodedSpan (.onLine 1 4 9) 0 0]
    let data : List UInt32 := [1, 4, 6, 1, 1, 0, 0, 5, 0, 0]
    let workspace := (start.run calls).2
    (∀ item ∈ pushes, (item.resolve start.legend).isOk = true) ∧
      workspace.dataOf "left" = [1, 4, 3, 1, 1] ∧
      (∃ answer trace after,
        workspace.fullDelta ⟨"e", "f"⟩ "left" "b" pushes =
            (⟨.ok (some answer), trace⟩, after) ∧
          answer.Yields [1, 4, 3, 1, 1] data ∧ after.Shows "left" data) ∧
      ∃ resultId trace after,
        workspace.part ⟨"e", "f"⟩ "left" (.onLine 1 5 7) pushes =
            (⟨.ok (some ⟨resultId, [1, 5, 2, 1, 1, 0, 0, 2, 0, 0]⟩), trace⟩, after) ∧
          after.Shows "left" data := by
  intro start push calls pushes data workspace
  have succeeds : ∀ item ∈ pushes, (item.resolve start.legend).isOk = true := by decide
  have held : workspace.dataOf "left" = [1, 4, 3, 1, 1] := by decide
  have written : Token.encode (Push.accepted start.legend pushes) = data := by decide
  have short : (workspace.dataOf "left").length < UInt32.size := by rw [held]; decide
  obtain ⟨_, answersPart, answersEdits⟩ :=
    requests_agree rfl calls "left" succeeds short ⟨"e", "f"⟩
  have edits := answersEdits rfl "b"
  have part := answersPart rfl (.onLine 1 5 7)
  rw [written] at edits part
  rw [held] at edits
  exact ⟨succeeds, held, edits, part⟩

end Workspace

end SemanticHighlight
