import SemanticHighlight.Workspace.DocumentProperties

/-!
# What a request does to the documents

A request works on the document of its URI, opening it if need be. Whether its tokenizer fails or
succeeds, only that document changes.
-/

set_option autoImplicit false

namespace SemanticHighlight

namespace Session

theorem document_endedFor (uri : String) (session : Session) :
    (session.endedFor uri).document = session.document := by
  unfold endedFor
  split <;> rfl

theorem isFor_endedFor_of_ne {uri other : String} (apart : other ≠ uri) (session : Session) :
    (session.endedFor uri).isFor other = session.isFor other := by
  unfold endedFor
  split
  · rename_i closed
    have sameUri := (isFor_iff.mp closed).2
    rw [isFor_ended, eq_comm, ← Bool.not_eq_true, isFor_iff, sameUri]
    exact fun stillOpen => apart stillOpen.2.symm
  · rfl

end Session

namespace Workspace

/-- The document that a request for a URI finds, or opens. -/
def documentFor (fresh uri : String) (workspace : Workspace) : Document :=
  (workspace.document? uri).getD (.new workspace.legend fresh)

theorem documentFor_of_document? {workspace : Workspace} {uri : String} {document : Document}
    (fresh : String) (found : workspace.document? uri = some document) :
    workspace.documentFor fresh uri = document := by
  rw [documentFor, found, Option.getD_some]

theorem documentFor_of_absent {workspace : Workspace} {uri : String} (fresh : String)
    (absent : workspace.document? uri = none) :
    workspace.documentFor fresh uri = .new workspace.legend fresh := by
  rw [documentFor, absent, Option.getD_none]

theorem document?_put (workspace : Workspace) (uri other : String) (document : Document) :
    (workspace.put uri document).document? other =
      if other = uri then some document else workspace.document? other := by
  split
  · rename_i same
    rw [same, document?_put_self]
  · rename_i apart
    exact document?_put_of_ne document apart

theorem feed_put (workspace : Workspace) (uri : String) (document : Document) :
    (workspace.put uri document).feed = workspace.feed := by
  unfold put
  split <;> rfl

theorem document?_eq_none_iff {workspace : Workspace} {uri : String} :
    workspace.document? uri = none ↔ workspace.handle? uri = none := by
  constructor
  · intro absent
    cases found : workspace.handle? uri with
    | none => rfl
    | some handle =>
        obtain ⟨session, stands, _⟩ := handle?_sound found
        simp [document?, found, documentAt?, stands] at absent
  · intro missing
    rw [document?, missing, Option.bind_none]

theorem document?_openDocument (workspace : Workspace) (fresh uri other : String) :
    (workspace.openDocument fresh uri).2.document? other =
      if other = uri then some (workspace.documentFor fresh uri) else workspace.document? other := by
  unfold openDocument
  cases found : workspace.handle? uri with
  | none =>
      rw [documentFor_of_absent fresh (document?_eq_none_iff.mpr found)]
      exact document?_put workspace uri other _
  | some handle =>
      dsimp only
      split
      · rename_i same
        rw [same]
        cases present : workspace.document? uri with
        | none =>
            rw [document?_eq_none_iff, found] at present
            cases present
        | some document => rw [documentFor_of_document? fresh present]
      · rfl

/-- Closing leaves every document with its handle. -/
theorem documentAt?_close (workspace : Workspace) (uri : String) (handle : Nat) :
    (workspace.close uri).2.documentAt? handle = workspace.documentAt? handle := by
  unfold close
  split
  · change ((workspace.sessions.map (Session.endedFor uri))[handle]?).map Session.document = _
    rw [List.getElem?_map, Option.map_map]
    exact congrArg (workspace.sessions[handle]?.map ·) (funext (Session.document_endedFor uri))
  · rfl

theorem handle?_close_of_ne {workspace : Workspace} {uri other : String} (apart : other ≠ uri) :
    (workspace.close uri).2.handle? other = workspace.handle? other := by
  unfold close
  split
  · change (workspace.sessions.map (Session.endedFor uri)).findIdx? (Session.isFor other) = _
    rw [List.findIdx?_map]
    exact congrArg (workspace.sessions.findIdx? ·) (funext (Session.isFor_endedFor_of_ne apart))
  · rfl

theorem document?_close (workspace : Workspace) (uri other : String) :
    (workspace.close uri).2.document? other =
      if other = uri then none else workspace.document? other := by
  split
  · rename_i same
    rw [same, document?_close_self]
  · rename_i apart
    rw [document?, handle?_close_of_ne apart, document?]
    exact congrArg _ (funext (documentAt?_close workspace uri))

/-! ## Requests that the settings let through -/

theorem serve_cases {α : Type} (start : Document → Document) (finish : Document → α × Document)
    (resultId : α → String) (fresh : FreshIds) (uri : String) (pushes : List Push)
    (workspace : Workspace) :
    let document := start (workspace.documentFor fresh.opened uri)
    let outcome := Draft.empty.pushAll document.legend pushes
    let served := workspace.serve start finish resultId fresh uri pushes
    (∃ fault, outcome.result = .error fault ∧
        served = (⟨.error fault, some outcome.trace⟩, workspace.put uri document)) ∨
      ∃ draft answered, outcome.result = .ok draft ∧ finish (document.commit draft) = answered ∧
        served = (⟨.ok (some answered.1), some outcome.trace⟩,
          (workspace.put uri answered.2).send [.updated uri (resultId answered.1)]) := by
  intro document outcome served
  have tokenized : outcome = Draft.empty.pushAll
      (start ((workspace.document? uri).getD (.new workspace.legend fresh.opened))).legend
      pushes := rfl
  cases result : outcome.result with
  | error fault =>
      refine Or.inl ⟨fault, rfl, ?_⟩
      rw [tokenized] at result
      simp only [served, serve, result]
      rfl
  | ok draft =>
      refine Or.inr ⟨draft, _, rfl, rfl, ?_⟩
      rw [tokenized] at result
      simp only [served, serve, result]
      rfl

/-- The ways in which a request goes that begins a new encoding, `answer` being what it makes of the
array. -/
def Renews {α : Type} (workspace : Workspace) (fresh : FreshIds) (uri : String)
    (pushes : List Push) (answer : List UInt32 → α) (served : Response α × Workspace) : Prop :=
  let document := workspace.documentFor fresh.opened uri
  let outcome := Draft.empty.pushAll document.legend pushes
  (∃ fault, outcome.result = .error fault ∧
      served =
        (⟨.error fault, some outcome.trace⟩, workspace.put uri (document.create fresh.encoded))) ∨
    ∃ draft, outcome.result = .ok draft ∧
      served =
        (⟨.ok (some (answer draft.data.toList)), some outcome.trace⟩,
          (workspace.put uri ⟨document.legend, fresh.encoded, draft.data.toList, none⟩).send
            [.updated uri fresh.encoded])

section Admitted

variable {workspace : Workspace} {fresh : FreshIds} {uri previous : String} {pushes : List Push}

theorem renews_serve {α : Type} {start : Document → Document} {finish : Document → α × Document}
    {resultId : α → String} {answer : List UInt32 → α}
    (begun : start (workspace.documentFor fresh.opened uri) =
      (workspace.documentFor fresh.opened uri).create fresh.encoded)
    (answers : ∀ legend data, finish ⟨legend, fresh.encoded, data, none⟩ =
      (answer data, ⟨legend, fresh.encoded, data, none⟩))
    (names : ∀ data, resultId (answer data) = fresh.encoded) :
    workspace.Renews fresh uri pushes answer
      (workspace.serve start finish resultId fresh uri pushes) := by
  have cases := serve_cases start finish resultId fresh uri pushes workspace
  dsimp only at cases
  rw [begun] at cases
  rcases cases with failed | ⟨draft, answered, succeeded, finished, served⟩
  · exact Or.inl failed
  · have told := (answers _ _).symm.trans finished
    rw [← told, names] at served
    exact Or.inr ⟨draft, succeeded, served⟩

theorem renews_full
    (admitted : (workspace.settings.enabled && workspace.settings.full) = true) :
    workspace.Renews fresh uri pushes (⟨fresh.encoded, ·⟩) (workspace.full fresh uri pushes) := by
  rw [full, if_pos admitted]
  exact renews_serve rfl (fun _ _ => rfl) (fun _ => rfl)

theorem renews_part {span : Span}
    (admitted : (workspace.settings.enabled && workspace.settings.range) = true) :
    workspace.Renews fresh uri pushes (fun data => ⟨fresh.encoded, Token.excerpt span data⟩)
      (workspace.part fresh uri span pushes) := by
  obtain ⟨enabled, range⟩ := Bool.and_eq_true_iff.mp admitted
  simp only [part, enabled, range, Bool.not_true, Bool.false_eq_true, ↓reduceIte]
  exact renews_serve rfl (fun _ _ => rfl) (fun _ => rfl)

theorem full_of_refused
    (refused : ¬ (workspace.settings.enabled && workspace.settings.full) = true) :
    workspace.full fresh uri pushes = (⟨.ok none, none⟩, workspace) := by
  rw [full, if_neg refused]
  rfl

theorem part_of_refused {span : Span}
    (refused : ¬ (workspace.settings.enabled && workspace.settings.range) = true) :
    ∃ result, workspace.part fresh uri span pushes = (⟨result, none⟩, workspace) := by
  unfold part
  split
  · exact ⟨.ok none, rfl⟩
  · rename_i enabled
    split
    · rename_i range
      exact absurd (Bool.and_eq_true_iff.mpr ⟨by simpa using enabled, range⟩) refused
    · exact ⟨.error .rangeUnsupported, rfl⟩

theorem fullDelta_of_off (off : workspace.settings.delta = false) :
    workspace.fullDelta fresh uri previous pushes =
      let served := workspace.full fresh uri pushes
      (⟨served.1.result.map fun snapshot => snapshot.map .full, served.1.trace⟩, served.2) := by
  rw [fullDelta, off]
  rfl

theorem fullDelta_of_disabled (on : workspace.settings.delta = true)
    (disabled : workspace.settings.enabled = false) :
    workspace.fullDelta fresh uri previous pushes = (⟨.ok none, none⟩, workspace) := by
  rw [fullDelta, on, disabled]
  rfl

/-- An id that is not the current one is answered as a request for all tokens. -/
theorem renews_fullDelta_of_stale (on : workspace.settings.delta = true)
    (enabled : workspace.settings.enabled = true)
    (stale : previous ≠ (workspace.documentFor fresh.opened uri).id) :
    workspace.Renews fresh uri pushes (fun data => .full ⟨fresh.encoded, data⟩)
      (workspace.fullDelta fresh uri previous pushes) := by
  simp only [fullDelta, on, enabled, Bool.not_true, Bool.false_eq_true, ↓reduceIte]
  exact renews_serve (if_neg stale) (fun _ _ => rfl) (fun _ => rfl)

/-- The current id is answered by the edit from the array that was found, and kept. -/
theorem fullDelta_cases_of_current (on : workspace.settings.delta = true)
    (enabled : workspace.settings.enabled = true)
    (current : previous = (workspace.documentFor fresh.opened uri).id) :
    let document := workspace.documentFor fresh.opened uri
    let outcome := Draft.empty.pushAll document.legend pushes
    (∃ fault, outcome.result = .error fault ∧
        workspace.fullDelta fresh uri previous pushes =
          (⟨.error fault, some outcome.trace⟩,
            workspace.put uri { document with base := some document.data })) ∨
      ∃ draft, outcome.result = .ok draft ∧
        workspace.fullDelta fresh uri previous pushes =
          (⟨.ok (some (.delta ⟨document.id, [.between document.data draft.data.toList]⟩)),
              some outcome.trace⟩,
            (workspace.put uri
              ⟨document.legend, document.id, draft.data.toList, some document.data⟩).send
                [.updated uri document.id]) := by
  intro document outcome
  have begun : document.edit fresh.encoded previous =
      { document with base := some document.data } := if_pos current
  have cases := serve_cases (Document.edit fresh.encoded previous) Document.edits Answer.resultId
    fresh uri pushes workspace
  simp only [fullDelta, on, enabled, Bool.not_true, Bool.false_eq_true, ↓reduceIte]
  dsimp only at cases
  rw [begun] at cases
  rcases cases with failed | ⟨draft, answered, succeeded, rfl, served⟩
  · exact Or.inl failed
  · exact Or.inr ⟨draft, succeeded, served⟩

end Admitted

/-! ## Requests as calls -/

section Calls

variable {workspace after : Workspace} {fresh : FreshIds} {uri previous : String}
  {pushes : List Push}

theorem perform_full {response : Response Snapshot}
    (served : workspace.full fresh uri pushes = (response, after)) :
    workspace.perform fresh (.full uri pushes) = (.snapshot response, after) := by
  simp only [perform, served]

theorem perform_part {span : Span} {response : Response Snapshot}
    (served : workspace.part fresh uri span pushes = (response, after)) :
    workspace.perform fresh (.part uri span pushes) = (.snapshot response, after) := by
  simp only [perform, served]

theorem perform_fullDelta {response : Response Answer}
    (served : workspace.fullDelta fresh uri previous pushes = (response, after)) :
    workspace.perform fresh (.fullDelta uri previous pushes) = (.answer response, after) := by
  simp only [perform, served]

theorem perform_fullDelta_of_off {response : Response Snapshot}
    (off : workspace.settings.delta = false)
    (served : workspace.full fresh uri pushes = (response, after)) :
    workspace.perform fresh (.fullDelta uri previous pushes) =
      (.answer ⟨response.result.map fun snapshot => snapshot.map .full, response.trace⟩, after) := by
  apply perform_fullDelta
  rw [fullDelta_of_off off, served]

end Calls

end Workspace

end SemanticHighlight
