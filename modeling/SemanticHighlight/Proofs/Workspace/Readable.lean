import Mathlib.Data.List.TakeWhile
import SemanticHighlight.Proofs.Document.Readable
import SemanticHighlight.Proofs.Workspace.Invariant

/-!
# What a workspace answers can be read

A request is answered by what its document would answer once more, so the answers of a workspace can
be read because its documents can.
-/

set_option autoImplicit false

namespace SemanticHighlight

/-- The tokens of the pushes in front of the first that is refused. -/
def Push.handedOver (legend : Legend) (pushes : List Push) : List Token :=
  accepted legend (pushes.takeWhile fun item => (item.resolve legend).isOk)

namespace Workspace

/-- The tokens that a call hands over. A tokenizer stops at the first push that is refused, and a step on
a handle goes on behind it. -/
def Call.tokens (legend : Legend) : Call → List Token
  | .full _ pushes | .fullDelta _ _ pushes | .part _ _ pushes => Push.handedOver legend pushes
  | .step _ taken => Push.accepted legend taken.pushes
  | .openDocument _ | .contains _ | .close _ | .clear => []

def Call.InOrder (legend : Legend) (call : Call) : Prop :=
  Token.InOrder (call.tokens legend)

instance (legend : Legend) (call : Call) : Decidable (call.InOrder legend) :=
  inferInstanceAs (Decidable (Token.InOrder _))

theorem readable_pushAll {legend : Legend} {pushes : List Push} {draft : Draft}
    (ordered : Token.InOrder (Push.handedOver legend pushes))
    (succeeded : (Draft.empty.pushAll legend pushes).result = .ok draft) :
    Token.Readable draft.data.toList := by
  have all := Draft.pushAll_succeeds_iff.mp ⟨draft, succeeded⟩
  rw [Push.handedOver, List.takeWhile_eq_self_iff.mpr all] at ordered
  rw [(Draft.writes_empty.pushAll succeeded).data]
  exact Token.readable_encode ordered

theorem Call.InOrder.readable {legend : Legend} {call : Call} (ordered : call.InOrder legend)
    {draft : Draft} (drafts : call.Drafts legend draft) : Token.Readable draft.data.toList := by
  cases call with
  | full uri pushes => exact readable_pushAll ordered drafts
  | fullDelta uri previous pushes => exact readable_pushAll ordered drafts
  | part uri span pushes => exact readable_pushAll ordered drafts
  | step handle taken =>
      cases drafts
      exact Document.readable_pushEach ordered
  | openDocument uri => cases drafts
  | contains uri => cases drafts
  | close uri => cases drafts
  | clear => cases drafts

/-! ## Answers of a workspace and of its documents -/

section Answers

variable {workspace after : Workspace} {fresh : FreshIds} {uri previous : String} {span : Span}
  {pushes : List Push} {trace : Option (List Nat)}

theorem reply_of_result {α : Type} {reply : Response α × Workspace} {answer : α}
    (answered : reply.1.result = .ok (some answer)) :
    reply = (⟨.ok (some answer), reply.1.trace⟩, reply.2) := by
  rw [← answered]

theorem serve_answer {α : Type} {start : Document → Document} {finish : Document → α × Document}
    {resultId : α → String} {answer : α}
    (served : workspace.serve start finish resultId fresh uri pushes =
      (⟨.ok (some answer), trace⟩, after)) :
    ∃ document, after.document? uri = some (finish document).2 ∧ (finish document).1 = answer := by
  rcases serve_cases start finish resultId fresh uri pushes workspace with
    ⟨fault, _, failed⟩ | ⟨draft, answered, _, rfl, succeeded⟩
  · rw [failed] at served
    cases served
  · rw [succeeded] at served
    cases served
    exact ⟨_, document?_put_self workspace uri _, rfl⟩

theorem full_answer {snapshot : Snapshot}
    (served : workspace.full fresh uri pushes = (⟨.ok (some snapshot), trace⟩, after)) :
    ∃ document, after.document? uri = some document ∧ document.base = none ∧
      document.full.1 = snapshot := by
  unfold full at served
  split at served
  · obtain ⟨document, found, answered⟩ := serve_answer served
    exact ⟨_, found, rfl, answered⟩
  · cases served

theorem part_answer {snapshot : Snapshot}
    (served : workspace.part fresh uri span pushes = (⟨.ok (some snapshot), trace⟩, after)) :
    ∃ document, after.document? uri = some document ∧ (document.part span).1 = snapshot := by
  unfold part at served
  split at served
  · cases served
  · split at served
    · obtain ⟨document, found, answered⟩ := serve_answer served
      exact ⟨_, found, answered⟩
    · cases served

theorem fullDelta_answer {answer : Answer}
    (served : workspace.fullDelta fresh uri previous pushes =
      (⟨.ok (some answer), trace⟩, after)) :
    ∃ document, after.document? uri = some document ∧ document.edits.1 = answer := by
  cases delta : workspace.settings.delta with
  | false =>
      -- The answer is that to a request for all tokens, which leaves no base behind.
      rw [fullDelta_of_off delta] at served
      cases whole : workspace.full fresh uri pushes with
      | mk response reached =>
          obtain ⟨result, trace⟩ := response
          rw [whole] at served
          rcases result with fault | (_ | snapshot)
          · cases served
          · cases served
          · cases served
            obtain ⟨document, found, blank, rfl⟩ := full_answer whole
            refine ⟨document, found, ?_⟩
            rw [Document.edits_of_no_base blank]
            rfl
  | true =>
      unfold fullDelta at served
      rw [delta] at served
      split at served
      · rename_i off
        cases off
      · split at served
        · obtain ⟨document, found, answered⟩ := serve_answer served
          rw [Document.snd_edits] at found
          exact ⟨document, found, answered⟩
        · cases served

end Answers

/-- Requests whose tokens come in order are answered by arrays that can be read, or by edits, and no
word leaves its range on the way to a part. -/
structure AnswersReadably (workspace : Workspace) : Prop where
  full : ∀ fresh uri pushes, Token.InOrder (Push.handedOver workspace.legend pushes) →
    ∀ snapshot, (workspace.full fresh uri pushes).1.result = .ok (some snapshot) →
      Token.Readable snapshot.data
  part : ∀ fresh uri span pushes, Token.InOrder (Push.handedOver workspace.legend pushes) →
    ∀ snapshot, (workspace.part fresh uri span pushes).1.result = .ok (some snapshot) →
      Token.Readable snapshot.data ∧
        ∃ document, (workspace.part fresh uri span pushes).2.document? uri = some document ∧
          Token.checkedExcerpt? span document.data = some snapshot.data
  fullDelta : ∀ fresh uri previous pushes,
    Token.InOrder (Push.handedOver workspace.legend pushes) →
      ∀ snapshot,
        (workspace.fullDelta fresh uri previous pushes).1.result = .ok (some (.full snapshot)) →
          Token.Readable snapshot.data

section All

variable {workspace : Workspace}
  (all : workspace.All fun document => document.legend = workspace.legend ∧ document.Readable)

include all

/-- What a request for edits answers is what its document, which can be read, would answer again. -/
theorem exists_readable_of_fullDelta {fresh : FreshIds} {uri previous : String}
    {pushes : List Push} (ordered : Token.InOrder (Push.handedOver workspace.legend pushes))
    {answer : Answer}
    (answered : (workspace.fullDelta fresh uri previous pushes).1.result = .ok (some answer)) :
    ∃ document, (workspace.fullDelta fresh uri previous pushes).2.document? uri = some document ∧
      document.Readable ∧ document.edits.1 = answer := by
  have kept := all.fullDelta (Document.stable_readable _) (fun _ => readable_pushAll ordered) fresh
    uri previous
  obtain ⟨document, found, again⟩ := fullDelta_answer (reply_of_result answered)
  exact ⟨document, found, (kept.document? found).2, again⟩

theorem All.answersReadably : workspace.AnswersReadably where
  full fresh uri pushes ordered snapshot answered := by
    have kept := all.full (Document.stable_readable _) (fun _ => readable_pushAll ordered) fresh uri
    obtain ⟨document, found, _, rfl⟩ := full_answer (reply_of_result answered)
    exact (kept.document? found).2.data
  part fresh uri span pushes ordered snapshot answered := by
    have kept := all.part (Document.stable_readable _) (fun _ => readable_pushAll ordered) fresh uri
      span
    obtain ⟨document, found, rfl⟩ := part_answer (reply_of_result answered)
    obtain ⟨checked, readable⟩ := (kept.document? found).2.answersReadably.part span
    exact ⟨readable, document, found, checked⟩
  fullDelta fresh uri previous pushes ordered snapshot answered := by
    obtain ⟨document, _, readable, again⟩ :=
      exists_readable_of_fullDelta all ordered answered
    exact readable.answersReadably.edits snapshot again

end All

theorem all_readable_run {start : Workspace} (blank : start.sessions = [])
    {calls : List (FreshIds × Call)} (ordered : ∀ call ∈ calls, call.2.InOrder start.legend) :
    (start.run calls).2.All fun document =>
      document.legend = start.legend ∧ document.Readable :=
  All.run (Document.stable_readable start.legend) (All.ofBlank blank)
    fun call member _ drafts => (ordered call member).readable drafts

/-- As long as tokens are pushed in order, a document on its own and every document of a workspace,
closed ones included, keeps arrays that can be read and answers only such arrays, and so do the
requests of the workspace. Edits that are answered lead from the base to such an array too, as long
as the base is no longer than words can count. -/
theorem readable_of_inOrder :
    (∀ legend id (steps : List (String × Document.Step)),
      (∀ step ∈ steps, step.2.InOrder legend) →
        let document := (Document.new legend id).run steps
        document.Readable ∧ document.AnswersReadably ∧
          ∀ edited, document.edits.1 = .delta edited → ∃ base, document.base = some base ∧
            (base.length < UInt32.size → Edit.LeadToReadable base edited.edits)) ∧
      ∀ (start : Workspace) (calls : List (FreshIds × Call)), start.sessions = [] →
        (∀ call ∈ calls, call.2.InOrder start.legend) →
          let workspace := (start.run calls).2
          (workspace.All fun document => document.Readable ∧ document.AnswersReadably ∧
            ∀ edited, document.edits.1 = .delta edited → ∃ base, document.base = some base ∧
              (base.length < UInt32.size → Edit.LeadToReadable base edited.edits)) ∧
          workspace.AnswersReadably ∧
          ∀ fresh uri previous pushes,
            Token.InOrder (Push.handedOver workspace.legend pushes) →
              ∀ edited, (workspace.fullDelta fresh uri previous pushes).1.result =
                  .ok (some (.delta edited)) →
                ∃ document base,
                  (workspace.fullDelta fresh uri previous pushes).2.document? uri =
                    some document ∧ document.base = some base ∧
                  (base.length < UInt32.size → Edit.LeadToReadable base edited.edits) := by
  constructor
  · intro legend id steps ordered document
    have readable : document.Readable := Document.readable_run legend id ordered
    exact ⟨readable, readable.answersReadably, fun edited => readable.leadToReadable⟩
  · intro start calls blank ordered workspace
    have all := all_readable_run blank ordered
    refine ⟨fun handle document stands => ?_, ?_⟩
    · have readable := (all handle document stands).2
      exact ⟨readable, readable.answersReadably, fun edited => readable.leadToReadable⟩
    · rw [← legend_run start calls] at all
      refine ⟨all.answersReadably, fun fresh uri previous pushes ordered edited answered => ?_⟩
      obtain ⟨document, found, readable, again⟩ :=
        exists_readable_of_fullDelta all ordered answered
      obtain ⟨base, held, leads⟩ := readable.leadToReadable again
      exact ⟨document, base, found, held, leads⟩

/-- A tokenizer that fails in front of a step back has left a base behind, and a document that is
closed goes on being edited. -/
theorem readable_of_inOrder_behind_failure :
    let start := ofLegend ⟨[], []⟩
    let first := Push.token ⟨0, 4294967295, 9, 1, 0⟩
    let second := Push.token ⟨4294967295, 0, 2, 2, 0⟩
    let calls : List (FreshIds × Call) :=
      [(⟨"a", "b"⟩, .full "right" [first]),
        (⟨"c", "d"⟩, .close "right"),
        (⟨"e", "f"⟩, .step 0 (.edit "b" [first, second] false)),
        (⟨"g", "h"⟩, .full "left" [first, second]),
        (⟨"i", "j"⟩, .fullDelta "left" "h" [second, .fail .rangeUnsupported, first])]
    let workspace := (start.run calls).2
    let edited : Delta := ⟨"h", [⟨5, 5, []⟩]⟩
    let detached : Document :=
      ⟨⟨[], []⟩, "b", [0, 4294967295, 9, 1, 0], some [0, 4294967295, 9, 1, 0]⟩
    start.sessions = [] ∧ (∀ call ∈ calls, call.2.InOrder start.legend) ∧
      workspace.documentAt? 0 = some detached ∧ detached.Readable ∧
      (workspace.fullDelta ⟨"k", "l"⟩ "left" "h" [first]).1.result =
        .ok (some (.delta edited)) ∧
      [0, 4294967295, 9, 1, 0, 4294967295, 0, 2, 2, 0].length < UInt32.size ∧
      Edit.LeadToReadable [0, 4294967295, 9, 1, 0, 4294967295, 0, 2, 2, 0] edited.edits := by
  intro start first second calls workspace edited detached
  have ordered : ∀ call ∈ calls, call.2.InOrder start.legend := by decide
  obtain ⟨kept, _, answers⟩ := readable_of_inOrder.2 start calls rfl ordered
  have stands : workspace.documentAt? 0 = some detached := by decide
  have answered : (workspace.fullDelta ⟨"k", "l"⟩ "left" "h" [first]).1.result =
      .ok (some (.delta edited)) := by decide
  have inOrder : Token.InOrder (Push.handedOver workspace.legend [first]) := by decide
  obtain ⟨document, base, found, held, leads⟩ :=
    answers ⟨"k", "l"⟩ "left" "h" [first] inOrder edited answered
  have whole : ((workspace.fullDelta ⟨"k", "l"⟩ "left" "h" [first]).2.document? "left").bind
      Document.base = some [0, 4294967295, 9, 1, 0, 4294967295, 0, 2, 2, 0] := by
    decide
  rw [found, Option.bind_some, held, Option.some.injEq] at whole
  subst whole
  exact ⟨rfl, ordered, stands, (kept 0 detached stands).1, answered, by decide, leads (by decide)⟩

/-- Four words of the base stand past those that can be counted, so the edit is made behind four
words of the first token, and what it leads to cannot be read. -/
theorem readable_of_inOrder_not_past_words :
    (∀ step ∈ Document.lengthen 858993460, step.2.InOrder ⟨[], []⟩) ∧
      ∃ edited base patched,
        ((Document.new ⟨[], []⟩ "a").run (Document.lengthen 858993460)).edits.1 =
            .delta edited ∧
          ((Document.new ⟨[], []⟩ "a").run (Document.lengthen 858993460)).base = some base ∧
            Edit.applyAll base edited.edits = .ok patched ∧
              Token.decode patched = .error (.positionOverflow 2) :=
  ⟨Document.inOrder_lengthen _, Document.decode_of_lengthen (by decide) (by decide)⟩

end Workspace

end SemanticHighlight
