import SemanticHighlight.Proofs.Document.Stable
import SemanticHighlight.Proofs.Workspace.Requests

/-!
# Properties that all documents of a workspace keep

The documents of a workspace are those that a handle leads to, closed ones included. What a call does
to them is what requests and steps do to one document, so a property that documents keep holds of
all of them after every run.
-/

set_option autoImplicit false

namespace SemanticHighlight.Workspace

def All (holds : Document → Prop) (workspace : Workspace) : Prop :=
  ∀ handle document, workspace.documentAt? handle = some document → holds document

/-- A draft that a call may commit, when names are looked up in `legend`. -/
def Call.Drafts (legend : Legend) (draft : Draft) : Call → Prop
  | .full _ pushes | .fullDelta _ _ pushes | .part _ _ pushes =>
      (Draft.empty.pushAll legend pushes).result = .ok draft
  | .step _ taken => draft = (Draft.empty.pushEach legend taken.pushes).2
  | .openDocument _ | .contains _ | .close _ | .clear => False

/-! ## What stands at a handle -/

theorem documentAt?_append_open {workspace : Workspace} {uri : String} {document found : Document}
    {handle : Nat}
    (stands : documentAt? { workspace with
      sessions := workspace.sessions ++ [⟨uri, true, document⟩] } handle = some found) :
    workspace.documentAt? handle = some found ∨ found = document := by
  simp only [documentAt?, List.getElem?_append] at stands
  split at stands
  · exact Or.inl stands
  · obtain ⟨session, member, rfl⟩ := Option.map_eq_some_iff.mp stands
    rw [List.mem_singleton.mp (List.mem_of_getElem? member)]
    exact Or.inr rfl

theorem documentAt?_clear (workspace : Workspace) (handle : Nat) :
    workspace.clear.documentAt? handle = workspace.documentAt? handle := by
  change ((workspace.sessions.map Session.ended)[handle]?).map Session.document = _
  rw [List.getElem?_map, Option.map_map]
  rfl

namespace All

variable {holds : Document → Prop} {workspace : Workspace} {document : Document}

theorem ofBlank (blank : workspace.sessions = []) : workspace.All holds := by
  intro handle document stands
  simp [documentAt?, blank] at stands

theorem document? (all : workspace.All holds) {uri : String}
    (found : workspace.document? uri = some document) : holds document := by
  obtain ⟨handle, _, stands⟩ := Option.bind_eq_some_iff.mp found
  exact all handle document stands

theorem documentFor (all : workspace.All holds) (new : ∀ id, holds (.new workspace.legend id))
    (fresh uri : String) : holds (workspace.documentFor fresh uri) := by
  cases found : workspace.document? uri with
  | some document =>
      rw [documentFor_of_document? fresh found]
      exact all.document? found
  | none =>
      rw [documentFor_of_absent fresh found]
      exact new fresh

theorem putAt (all : workspace.All holds) (held : holds document) (handle : Nat) :
    (workspace.putAt handle document).All holds := by
  intro other found stands
  by_cases same : other = handle
  · subst same
    have inside : other < workspace.sessions.length := by
      by_contra outside
      simp [documentAt?, Workspace.putAt, Nat.not_lt.mp outside] at stands
    rw [documentAt?_putAt_self document inside] at stands
    cases stands
    exact held
  · rw [documentAt?_putAt_of_ne document same] at stands
    exact all other found stands

theorem put (all : workspace.All holds) (held : holds document) (uri : String) :
    (workspace.put uri document).All holds := by
  unfold Workspace.put
  cases workspace.handle? uri with
  | some handle => exact all.putAt held handle
  | none =>
      intro handle found stands
      rcases documentAt?_append_open stands with before | rfl
      · exact all handle found before
      · exact held

theorem openDocument (all : workspace.All holds) (new : ∀ id, holds (.new workspace.legend id))
    (fresh uri : String) : (workspace.openDocument fresh uri).2.All holds := by
  unfold Workspace.openDocument
  cases workspace.handle? uri with
  | some handle => exact all
  | none => exact all.put (new fresh) uri

theorem close (all : workspace.All holds) (uri : String) : (workspace.close uri).2.All holds := by
  intro handle document stands
  rw [documentAt?_close] at stands
  exact all handle document stands

theorem clear (all : workspace.All holds) : workspace.clear.All holds := by
  intro handle document stands
  rw [documentAt?_clear] at stands
  exact all handle document stands

end All

/-! ## Calls -/

section Calls

variable {holds : Document → Prop} {committable : Draft → Prop} {workspace : Workspace}

section Requests

variable {pushes : List Push} (all : workspace.All holds)
  (stable : Document.Stable workspace.legend committable holds)
  (commits : ∀ draft, (Draft.empty.pushAll workspace.legend pushes).result = .ok draft →
    committable draft)

include all stable commits

theorem All.serve {α : Type} {start : Document → Document} {finish : Document → α × Document}
    (starts : ∀ {document}, holds document → holds (start document))
    (finishes : ∀ {document}, holds document → holds (finish document).2) (resultId : α → String)
    (fresh : FreshIds) (uri : String) :
    (workspace.serve start finish resultId fresh uri pushes).2.All holds := by
  have begun := starts (all.documentFor stable.new fresh.opened uri)
  rcases serve_cases start finish resultId fresh uri pushes workspace with
    ⟨fault, _, served⟩ | ⟨draft, answered, succeeded, rfl, served⟩
  · rw [served]
    exact all.put begun uri
  · rw [stable.ofLegend begun] at succeeded
    rw [served]
    exact all.put (finishes (stable.commit begun (commits draft succeeded))) uri

theorem All.full (fresh : FreshIds) (uri : String) :
    (workspace.full fresh uri pushes).2.All holds := by
  unfold Workspace.full
  split
  · exact all.serve stable commits (stable.create fresh.encoded) stable.unbase _ fresh uri
  · exact all

theorem All.part (fresh : FreshIds) (uri : String) (span : Span) :
    (workspace.part fresh uri span pushes).2.All holds := by
  unfold Workspace.part
  split
  · exact all
  · split
    · exact all.serve stable commits (stable.create fresh.encoded) stable.unbase _ fresh uri
    · exact all

theorem All.fullDelta (fresh : FreshIds) (uri previous : String) :
    (workspace.fullDelta fresh uri previous pushes).2.All holds := by
  unfold Workspace.fullDelta
  split
  · exact all.full stable commits fresh uri
  · split
    · refine all.serve stable commits (stable.edit · fresh.encoded previous) ?_ _ fresh uri
      intro document held
      rw [Document.snd_edits]
      exact held
    · exact all

end Requests

theorem All.perform (stable : Document.Stable workspace.legend committable holds)
    (all : workspace.All holds) (fresh : FreshIds) {call : Call}
    (commits : ∀ draft, call.Drafts workspace.legend draft → committable draft) :
    (workspace.perform fresh call).2.All holds := by
  cases call with
  | openDocument uri => exact all.openDocument stable.new fresh.opened uri
  | full uri pushes => exact all.full stable commits fresh uri
  | fullDelta uri previous pushes => exact all.fullDelta stable commits fresh uri previous
  | part uri span pushes => exact all.part stable commits fresh uri span
  | contains uri => exact all
  | close uri => exact all.close uri
  | clear => exact all.clear
  | step handle step =>
      change (workspace.performAt fresh.encoded handle step).2.All holds
      unfold performAt
      cases stands : workspace.documentAt? handle with
      | none => exact all
      | some document =>
          -- A handle may lead to a document that is closed, which no URI finds any more.
          have held := stable.perform (all handle document stands) fresh.encoded (commits _ rfl)
          exact all.putAt held handle

end Calls

/-! ## Settings and legend -/

/-- What a workspace is made with. -/
def terms (workspace : Workspace) : Settings × Legend :=
  (workspace.settings, workspace.legend)

theorem terms_put (workspace : Workspace) (uri : String) (document : Document) :
    (workspace.put uri document).terms = workspace.terms := by
  unfold put
  split <;> rfl

theorem terms_serve {α : Type} (start : Document → Document) (finish : Document → α × Document)
    (resultId : α → String) (fresh : FreshIds) (uri : String) (pushes : List Push)
    (workspace : Workspace) :
    (workspace.serve start finish resultId fresh uri pushes).2.terms = workspace.terms := by
  rcases serve_cases start finish resultId fresh uri pushes workspace with
    ⟨_, _, served⟩ | ⟨_, _, _, _, served⟩
  · rw [served]
    exact terms_put workspace uri _
  · rw [served]
    exact terms_put workspace uri _

theorem terms_full (fresh : FreshIds) (uri : String) (pushes : List Push) (workspace : Workspace) :
    (workspace.full fresh uri pushes).2.terms = workspace.terms := by
  unfold full
  split
  · exact terms_serve _ _ _ fresh uri pushes workspace
  · rfl

theorem terms_perform (fresh : FreshIds) (workspace : Workspace) (call : Call) :
    (workspace.perform fresh call).2.terms = workspace.terms := by
  cases call with
  | openDocument uri =>
      change (workspace.openDocument fresh.opened uri).2.terms = _
      unfold openDocument
      split
      · rfl
      · exact terms_put workspace uri _
  | full uri pushes => exact terms_full fresh uri pushes workspace
  | fullDelta uri previous pushes =>
      change (workspace.fullDelta fresh uri previous pushes).2.terms = _
      unfold fullDelta
      split
      · exact terms_full fresh uri pushes workspace
      · split
        · exact terms_serve _ _ _ fresh uri pushes workspace
        · rfl
  | part uri span pushes =>
      change (workspace.part fresh uri span pushes).2.terms = _
      unfold part
      split
      · rfl
      · split
        · exact terms_serve _ _ _ fresh uri pushes workspace
        · rfl
  | contains uri => rfl
  | close uri =>
      change (workspace.close uri).2.terms = _
      unfold close
      split <;> rfl
  | clear => rfl
  | step handle step =>
      change (workspace.performAt fresh.encoded handle step).2.terms = _
      unfold performAt
      split <;> rfl

theorem terms_run (workspace : Workspace) (calls : List (FreshIds × Call)) :
    (workspace.run calls).2.terms = workspace.terms := by
  induction calls generalizing workspace with
  | nil => rfl
  | cons call calls ih => exact (ih _).trans (terms_perform call.1 workspace call.2)

theorem settings_run (workspace : Workspace) (calls : List (FreshIds × Call)) :
    (workspace.run calls).2.settings = workspace.settings :=
  congrArg Prod.fst (terms_run workspace calls)

theorem legend_run (workspace : Workspace) (calls : List (FreshIds × Call)) :
    (workspace.run calls).2.legend = workspace.legend :=
  congrArg Prod.snd (terms_run workspace calls)

/-! ## Runs -/

theorem run_append (workspace : Workspace) (front later : List (FreshIds × Call)) :
    (workspace.run (front ++ later)).2 = ((workspace.run front).2.run later).2 := by
  induction front generalizing workspace with
  | nil => rfl
  | cons turn front ih => exact ih _

theorem run_snoc (workspace : Workspace) (calls : List (FreshIds × Call))
    (turn : FreshIds × Call) :
    (workspace.run (calls ++ [turn])).2 = ((workspace.run calls).2.perform turn.1 turn.2).2 :=
  run_append workspace calls [turn]

theorem All.run {holds : Document → Prop} {committable : Draft → Prop} {workspace : Workspace}
    (stable : Document.Stable workspace.legend committable holds) (all : workspace.All holds)
    {calls : List (FreshIds × Call)}
    (commits : ∀ call ∈ calls, ∀ draft, call.2.Drafts workspace.legend draft →
      committable draft) : (workspace.run calls).2.All holds := by
  induction calls generalizing workspace with
  | nil => exact all
  | cons call calls ih =>
      obtain ⟨first, later⟩ := List.forall_mem_cons.mp commits
      -- The rest of the run looks names up in the legend that the first call leaves.
      have kept : (workspace.perform call.1 call.2).2.legend = workspace.legend :=
        congrArg Prod.snd (terms_perform call.1 workspace call.2)
      rw [← kept] at later
      exact ih (kept ▸ stable) (all.perform stable call.1 first) later

theorem all_legend_run {start : Workspace} (blank : start.sessions = [])
    (calls : List (FreshIds × Call)) :
    (start.run calls).2.All fun document => document.legend = start.legend :=
  All.run (Document.stable_legend start.legend) (All.ofBlank blank) fun _ _ _ _ => trivial

end SemanticHighlight.Workspace
