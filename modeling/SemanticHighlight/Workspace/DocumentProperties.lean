import SemanticHighlight.Workspace

/-!
# The documents of a workspace

What putting, closing and clearing do to the document that a URI shows. Nothing here depends on how
sessions are numbered.
-/

set_option autoImplicit false

namespace SemanticHighlight

namespace Session

@[simp] theorem isFor_withDocument (uri : String) (document : Document) (session : Session) :
    (session.withDocument document).isFor uri = session.isFor uri := rfl

@[simp] theorem isFor_ended (uri : String) (session : Session) :
    session.ended.isFor uri = false := rfl

theorem isFor_endedFor (uri : String) (session : Session) :
    (session.endedFor uri).isFor uri = false := by
  unfold endedFor
  split
  · rfl
  · simp_all

theorem isFor_iff {uri : String} {session : Session} :
    session.isFor uri = true ↔ session.isOpen = true ∧ session.uri = uri := by
  simp [isFor]

end Session

namespace Workspace

private theorem findIdx?_modify {α : Type} {test : α → Bool} {change : α → α}
    (kept : ∀ item, test (change item) = test item) (items : List α) (index : Nat) :
    (items.modify index change).findIdx? test = items.findIdx? test := by
  induction items generalizing index with
  | nil => cases index <;> rfl
  | cons item items inductionHypothesis =>
      cases index with
      | zero => simp [List.modify_zero_cons, List.findIdx?_cons, kept]
      | succ index => simp [List.modify_succ_cons, List.findIdx?_cons, inductionHypothesis]

/-- A handle that was found is that of an open session of the URI. -/
theorem handle?_sound {workspace : Workspace} {uri : String} {handle : Nat}
    (found : workspace.handle? uri = some handle) :
    ∃ session, workspace.sessions[handle]? = some session ∧ session.isFor uri = true := by
  obtain ⟨inside, holds, _⟩ := List.findIdx?_eq_some_iff_getElem.mp found
  exact ⟨workspace.sessions[handle], List.getElem?_eq_getElem inside, holds⟩

@[simp] theorem handle?_send (workspace : Workspace) (events : List Event) (uri : String) :
    (workspace.send events).handle? uri = workspace.handle? uri := rfl

@[simp] theorem document?_send (workspace : Workspace) (events : List Event) (uri : String) :
    (workspace.send events).document? uri = workspace.document? uri := rfl

@[simp] theorem handle?_putAt (workspace : Workspace) (handle : Nat) (document : Document)
    (uri : String) : (workspace.putAt handle document).handle? uri = workspace.handle? uri :=
  findIdx?_modify (Session.isFor_withDocument uri document) _ _

theorem documentAt?_putAt_self {workspace : Workspace} {handle : Nat} (document : Document)
    (inside : handle < workspace.sessions.length) :
    (workspace.putAt handle document).documentAt? handle = some document := by
  simp [putAt, documentAt?, inside, Session.withDocument]

theorem documentAt?_putAt_of_ne {workspace : Workspace} {handle other : Nat} (document : Document)
    (apart : other ≠ handle) :
    (workspace.putAt handle document).documentAt? other = workspace.documentAt? other := by
  simp [putAt, documentAt?, Ne.symm apart]

theorem handle?_lt_length {workspace : Workspace} {uri : String} {handle : Nat}
    (found : workspace.handle? uri = some handle) : handle < workspace.sessions.length :=
  (List.findIdx?_eq_some_iff_getElem.mp found).1

theorem document?_put_self (workspace : Workspace) (uri : String) (document : Document) :
    (workspace.put uri document).document? uri = some document := by
  unfold put
  cases found : workspace.handle? uri with
  | some handle =>
      simp only [document?, handle?_putAt, found, Option.bind_some]
      exact documentAt?_putAt_self document (handle?_lt_length found)
  | none =>
      have absent : workspace.sessions.findIdx? (Session.isFor uri) = none := found
      simp [document?, handle?, documentAt?, List.findIdx?_append, absent, Session.isFor]

theorem document?_put_of_ne {workspace : Workspace} {uri other : String} (document : Document)
    (apart : other ≠ uri) :
    (workspace.put uri document).document? other = workspace.document? other := by
  unfold put
  cases found : workspace.handle? uri with
  | some handle =>
      simp only [document?, handle?_putAt]
      cases otherFound : workspace.handle? other with
      | none => rfl
      | some otherHandle =>
          simp only [Option.bind_some]
          apply documentAt?_putAt_of_ne
          rintro rfl
          obtain ⟨session, stands, isOurs⟩ := handle?_sound found
          obtain ⟨otherSession, otherStands, isTheirs⟩ := handle?_sound otherFound
          rw [stands, Option.some.injEq] at otherStands
          subst otherStands
          exact apart ((Session.isFor_iff.mp isTheirs).2.symm.trans (Session.isFor_iff.mp isOurs).2)
  | none =>
      cases otherFound : workspace.handle? other with
      | none =>
          have absent : workspace.sessions.findIdx? (Session.isFor other) = none := otherFound
          simp [document?, handle?, List.findIdx?_append, absent, Session.isFor, Ne.symm apart]
      | some otherHandle =>
          have inside := handle?_lt_length otherFound
          have present : workspace.sessions.findIdx? (Session.isFor other) = some otherHandle :=
            otherFound
          simp [document?, handle?, documentAt?, List.findIdx?_append, present,
            List.getElem?_append_left inside]

theorem contains_eq_true_iff {workspace : Workspace} {uri : String} :
    workspace.contains uri = true ↔ ∃ document, workspace.document? uri = some document := by
  simp [contains, Option.isSome_iff_exists]

theorem document?_clear (workspace : Workspace) (uri : String) :
    workspace.clear.document? uri = none := by
  have absent : (workspace.sessions.map Session.ended).findIdx? (Session.isFor uri) = none := by
    simp [List.findIdx?_eq_none_iff]
  simp only [clear, document?_send]
  simp only [document?, handle?, absent, Option.bind_none]

theorem document?_close_self (workspace : Workspace) (uri : String) :
    (workspace.close uri).2.document? uri = none := by
  unfold close
  split
  · have absent : (workspace.sessions.map (Session.endedFor uri)).findIdx? (Session.isFor uri) =
        none := by
      simp [List.findIdx?_eq_none_iff, Session.isFor_endedFor]
    simp only [document?_send]
    simp only [document?, handle?, absent, Option.bind_none]
  · rename_i isClosed
    simpa [contains] using isClosed

end Workspace

end SemanticHighlight
