import SemanticHighlight.Proofs.Document.History
import SemanticHighlight.Proofs.Workspace.Drawn

/-!
# What a single call does

A call leaves the workspace as it is, puts a document at its URI, closes, or works on the document of
a handle. Besides which of these it does, what matters to a run are the ids: which id a document has
afterwards, and which id the subscribers and the caller are told.
-/

set_option autoImplicit false

namespace SemanticHighlight

def Document.Outcome.resultIds : Document.Outcome → List String
  | .drafted _ => []
  | .snapshot shown => [shown.resultId]
  | .answer told => [told.resultId]

theorem Document.resultId_edits (document : Document) :
    document.edits.1.resultId = document.id := by
  unfold edits
  cases document.base <;> rfl

theorem Document.id_edit (fresh previous : String) (document : Document) :
    (document.edit fresh previous).id =
      (document.editIds fresh previous).getLast?.getD document.id := by
  unfold edit editIds
  split <;> rfl

namespace Workspace

/-- The URI that a call is about. -/
def Call.uri? : Call → Option String
  | .openDocument uri | .full uri _ | .fullDelta uri _ _ | .part uri _ _ | .contains uri
  | .close uri => some uri
  | .clear | .step _ _ => none

/-- Whether a call goes through a handle and not through the workspace. -/
def Call.isStep : Call → Bool
  | .step _ _ => true
  | .openDocument _ | .full _ _ | .fullDelta _ _ _ | .part _ _ _ | .contains _ | .close _
  | .clear => false

/-- The ids that a reply shows. -/
def Reply.resultIds : Reply → List String
  | .snapshot ⟨.ok (some shown), _⟩ => [shown.resultId]
  | .answer ⟨.ok (some told), _⟩ => [told.resultId]
  | .stepped (some outcome) => outcome.resultIds
  | .opened _ | .snapshot _ | .answer _ | .flag _ | .done | .stepped none => []

/-- What a call replies, and the workspace that it leads to. -/
inductive Does (workspace : Workspace) (fresh : FreshIds) : Call → Reply → Workspace → Prop where
  | nothing {call : Call} {reply : Reply} (unused : workspace.drawn fresh call = [])
      (silent : reply.resultIds = []) : Does workspace fresh call reply workspace
  /-- Behind the opening, `ids` are drawn. The document has the last of them, and the caller and the
  subscribers are told no other. -/
  | puts {call : Call} {reply : Reply} (uri : String) (document : Document) (ids : List String)
      (about : call.uri? = some uri)
      (draws : workspace.drawn fresh call = workspace.openingIds fresh.opened uri ++ ids)
      (named : document.id = ids.getLast?.getD (workspace.documentFor fresh.opened uri).id)
      (told : reply.resultIds = [] ∨ reply.resultIds = [document.id]) :
      Does workspace fresh call reply
        ((workspace.put uri document).send (reply.resultIds.map (.updated uri)))
  | closes (uri : String) (isOpen : workspace.contains uri = true) :
      Does workspace fresh (.close uri) (.flag true) (workspace.close uri).2
  | clears : Does workspace fresh .clear .done workspace.clear
  | steps {handle : Nat} {step : Document.Step} {outcome : Document.Outcome}
      (document : Document) :
      Does workspace fresh (.step handle step) (.stepped (some outcome))
        (workspace.putAt handle document)

@[simp] theorem send_nil (workspace : Workspace) : workspace.send [] = workspace := by
  simp [send, Feed.send]

section Requests

variable {workspace : Workspace} {fresh : FreshIds} {uri : String} {pushes : List Push}

theorem does_of_silent {call : Call} {reply : Reply} {document : Document} {ids : List String}
    (about : call.uri? = some uri)
    (draws : workspace.drawn fresh call = workspace.openingIds fresh.opened uri ++ ids)
    (named : document.id = ids.getLast?.getD (workspace.documentFor fresh.opened uri).id)
    (silent : reply.resultIds = []) :
    Does workspace fresh call reply (workspace.put uri document) := by
  have done := Does.puts uri document ids about draws named (Or.inl silent)
  rw [silent, List.map_nil, send_nil] at done
  exact done

theorem does_of_told {call : Call} {reply : Reply} {document : Document} {ids : List String}
    (about : call.uri? = some uri)
    (draws : workspace.drawn fresh call = workspace.openingIds fresh.opened uri ++ ids)
    (named : document.id = ids.getLast?.getD (workspace.documentFor fresh.opened uri).id)
    (told : reply.resultIds = [document.id]) :
    Does workspace fresh call reply
      ((workspace.put uri document).send [.updated uri document.id]) := by
  have done := Does.puts uri document ids about draws named (Or.inr told)
  rw [told, List.map_singleton] at done
  exact done

theorem does_serve {α : Type} {start : Document → Document} {finish : Document → α × Document}
    {resultId : α → String} {call : Call} {reply : Response α → Reply} {ids : List String}
    (about : call.uri? = some uri)
    (draws : workspace.drawn fresh call = workspace.openingIds fresh.opened uri ++ ids)
    (named : (start (workspace.documentFor fresh.opened uri)).id =
      ids.getLast?.getD (workspace.documentFor fresh.opened uri).id)
    (finishes : ∀ document, resultId (finish document).1 = document.id ∧
      (finish document).2.id = document.id)
    (failing : ∀ fault trace, (reply ⟨.error fault, trace⟩).resultIds = [])
    (answers : ∀ answer trace, (reply ⟨.ok (some answer), trace⟩).resultIds = [resultId answer]) :
    Does workspace fresh call (reply (workspace.serve start finish resultId fresh uri pushes).1)
      (workspace.serve start finish resultId fresh uri pushes).2 := by
  rcases serve_cases start finish resultId fresh uri pushes workspace with
    ⟨fault, _, failed⟩ | ⟨draft, answered, _, rfl, succeeded⟩
  · rw [failed]
    exact does_of_silent about draws named (failing fault _)
  · obtain ⟨saysId, keepsId⟩ :=
      finishes ((start (workspace.documentFor fresh.opened uri)).commit draft)
    rw [succeeded, saysId, ← keepsId]
    refine does_of_told about draws (keepsId.trans named) ?_
    rw [answers, saysId, keepsId]

end Requests

theorem does_openDocument (fresh : FreshIds) (uri : String) (workspace : Workspace) :
    Does workspace fresh (.openDocument uri)
      (.opened (workspace.openDocument fresh.opened uri).1)
      (workspace.openDocument fresh.opened uri).2 := by
  unfold openDocument
  cases found : workspace.handle? uri with
  | some handle =>
      have present : workspace.document? uri ≠ none := by
        rw [ne_eq, document?_eq_none_iff, found]
        exact Option.some_ne_none handle
      obtain ⟨document, shows⟩ := Option.ne_none_iff_exists'.mp present
      exact .nothing (openingIds_of_document? fresh.opened shows) rfl
  | none =>
      have absent := document?_eq_none_iff.mpr found
      have opens := documentFor_of_absent fresh.opened absent
      exact does_of_silent rfl (List.append_nil _).symm (congrArg Document.id opens).symm rfl

/-- A request for all tokens, made for itself or in place of one for edits. -/
theorem does_full {workspace : Workspace} {fresh : FreshIds} {uri : String} {pushes : List Push}
    {call : Call} {reply : Response Snapshot → Reply} (about : call.uri? = some uri)
    (draws : workspace.drawn fresh call =
      if workspace.settings.enabled && workspace.settings.full then
        workspace.openingIds fresh.opened uri ++ [fresh.encoded]
      else [])
    (refusing : (reply ⟨.ok none, none⟩).resultIds = [])
    (failing : ∀ fault trace, (reply ⟨.error fault, trace⟩).resultIds = [])
    (answers : ∀ snapshot trace,
      (reply ⟨.ok (some snapshot), trace⟩).resultIds = [snapshot.resultId]) :
    Does workspace fresh call (reply (workspace.full fresh uri pushes).1)
      (workspace.full fresh uri pushes).2 := by
  unfold full
  split at draws
  · rename_i admitted
    rw [if_pos admitted]
    exact does_serve about draws rfl (fun _ => ⟨rfl, rfl⟩) failing answers
  · rename_i refused
    rw [if_neg refused]
    exact .nothing draws refusing

theorem does_part (fresh : FreshIds) (uri : String) (span : Span) (pushes : List Push)
    (workspace : Workspace) :
    Does workspace fresh (.part uri span pushes)
      (.snapshot (workspace.part fresh uri span pushes).1)
      (workspace.part fresh uri span pushes).2 := by
  have draws : workspace.drawn fresh (.part uri span pushes) =
      if workspace.settings.enabled && workspace.settings.range then
        workspace.openingIds fresh.opened uri ++ [fresh.encoded]
      else [] := rfl
  unfold part
  cases enabled : workspace.settings.enabled with
  | false =>
      rw [enabled] at draws
      exact .nothing draws rfl
  | true =>
      cases range : workspace.settings.range with
      | false =>
          rw [enabled, range] at draws
          exact .nothing draws rfl
      | true =>
          rw [enabled, range] at draws
          exact does_serve rfl draws rfl (fun _ => ⟨rfl, rfl⟩) (fun _ _ => rfl) (fun _ _ => rfl)

theorem does_fullDelta (fresh : FreshIds) (uri previous : String) (pushes : List Push)
    (workspace : Workspace) :
    Does workspace fresh (.fullDelta uri previous pushes)
      (.answer (workspace.fullDelta fresh uri previous pushes).1)
      (workspace.fullDelta fresh uri previous pushes).2 := by
  cases delta : workspace.settings.delta with
  | false =>
      rw [fullDelta_of_off delta]
      have draws : workspace.drawn fresh (.fullDelta uri previous pushes) =
          if workspace.settings.enabled && workspace.settings.full then
            workspace.openingIds fresh.opened uri ++ [fresh.encoded]
          else [] := by
        simp only [drawn, delta, Bool.not_false, ↓reduceIte]
      exact @does_full workspace fresh uri pushes _
        (fun response =>
          .answer ⟨response.result.map fun snapshot => snapshot.map .full, response.trace⟩)
        rfl draws rfl (fun _ _ => rfl) (fun _ _ => rfl)
  | true =>
      cases enabled : workspace.settings.enabled with
      | false =>
          rw [fullDelta_of_disabled delta enabled]
          refine .nothing ?_ rfl
          simp only [drawn, delta, enabled, Bool.not_true, Bool.false_eq_true, ↓reduceIte]
      | true =>
          simp only [fullDelta, delta, enabled, Bool.not_true, Bool.false_eq_true, ↓reduceIte]
          refine does_serve rfl (drawn_fullDelta delta enabled) (Document.id_edit _ _ _) ?_
            (fun _ _ => rfl) (fun _ _ => rfl)
          intro document
          rw [Document.snd_edits]
          exact ⟨Document.resultId_edits document, rfl⟩

theorem does_close (fresh : FreshIds) (uri : String) (workspace : Workspace) :
    Does workspace fresh (.close uri) (.flag (workspace.close uri).1) (workspace.close uri).2 := by
  cases isOpen : workspace.contains uri with
  | true =>
      have flag : (workspace.close uri).1 = true := by rw [close, if_pos isOpen]
      rw [flag]
      exact .closes uri isOpen
  | false =>
      have same : workspace.close uri = (false, workspace) := by
        rw [close, isOpen]
        rfl
      rw [same]
      exact .nothing rfl rfl

theorem does_step (fresh : FreshIds) (handle : Nat) (step : Document.Step)
    (workspace : Workspace) :
    Does workspace fresh (.step handle step)
      (.stepped (workspace.performAt fresh.encoded handle step).1)
      (workspace.performAt fresh.encoded handle step).2 := by
  unfold performAt
  cases stands : workspace.documentAt? handle with
  | none =>
      refine .nothing ?_ rfl
      simp only [drawn, stands]
  | some document => exact .steps _

theorem does_perform (fresh : FreshIds) (workspace : Workspace) (call : Call) :
    Does workspace fresh call (workspace.perform fresh call).1 (workspace.perform fresh call).2 := by
  cases call with
  | openDocument uri => exact does_openDocument fresh uri workspace
  | full uri pushes =>
      exact does_full rfl rfl rfl (fun _ _ => rfl) (fun _ _ => rfl)
  | fullDelta uri previous pushes => exact does_fullDelta fresh uri previous pushes workspace
  | part uri span pushes => exact does_part fresh uri span pushes workspace
  | contains uri => exact .nothing rfl rfl
  | close uri => exact does_close fresh uri workspace
  | clear => exact .clears
  | step handle step => exact does_step fresh handle step workspace

end Workspace

end SemanticHighlight
