import SemanticHighlight.Proofs.Workspace.Requests

/-!
# The ids that a call draws

Every call is given ids to use should it need them. Here are those that it does use, in the order in
which it draws them.
-/

set_option autoImplicit false

namespace SemanticHighlight

/-- An edit of the current array needs no new id. -/
def Document.editIds (fresh previous : String) (document : Document) : List String :=
  if previous = document.id then [] else [fresh]

/-- The ids that a step with a document uses. -/
def Document.drawn (fresh : String) (document : Document) : Step → List String
  | .create _ _ => [fresh]
  | .edit previous _ _ => document.editIds fresh previous
  | .full | .part _ | .edits => []

namespace Workspace

/-- Opening a URI that is open needs no id. -/
def openingIds (fresh uri : String) (workspace : Workspace) : List String :=
  if workspace.contains uri then [] else [fresh]

/-- The ids that a call uses. -/
def drawn (fresh : FreshIds) (workspace : Workspace) : Call → List String
  | .openDocument uri => workspace.openingIds fresh.opened uri
  | .full uri _ =>
      if workspace.settings.enabled && workspace.settings.full then
        workspace.openingIds fresh.opened uri ++ [fresh.encoded]
      else []
  | .fullDelta uri previous _ =>
      if !workspace.settings.delta then
        if workspace.settings.enabled && workspace.settings.full then
          workspace.openingIds fresh.opened uri ++ [fresh.encoded]
        else []
      else if workspace.settings.enabled then
        workspace.openingIds fresh.opened uri ++
          (workspace.documentFor fresh.opened uri).editIds fresh.encoded previous
      else []
  | .part uri _ _ =>
      if workspace.settings.enabled && workspace.settings.range then
        workspace.openingIds fresh.opened uri ++ [fresh.encoded]
      else []
  | .contains _ | .close _ | .clear => []
  | .step handle step =>
      match workspace.documentAt? handle with
      | none => []
      | some document => document.drawn fresh.encoded step

theorem openingIds_of_document? {workspace : Workspace} {uri : String} {document : Document}
    (fresh : String) (found : workspace.document? uri = some document) :
    workspace.openingIds fresh uri = [] := by
  rw [openingIds, if_pos (contains_eq_true_iff.mpr ⟨document, found⟩)]

theorem openingIds_of_absent {workspace : Workspace} {uri : String} (fresh : String)
    (absent : workspace.document? uri = none) : workspace.openingIds fresh uri = [fresh] := by
  rw [openingIds, contains, absent]
  rfl

theorem drawn_fullDelta {workspace : Workspace} {fresh : FreshIds} {uri previous : String}
    {pushes : List Push} (delta : workspace.settings.delta = true)
    (enabled : workspace.settings.enabled = true) :
    workspace.drawn fresh (.fullDelta uri previous pushes) =
      workspace.openingIds fresh.opened uri ++
        (workspace.documentFor fresh.opened uri).editIds fresh.encoded previous := by
  simp only [drawn, delta, enabled, Bool.not_true, Bool.false_eq_true, ↓reduceIte]

end Workspace

end SemanticHighlight
