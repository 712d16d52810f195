import SemanticHighlight.Proofs.Workspace.Effect
import SemanticHighlight.Proofs.Workspace.Invariant

/-!
# Documents have ids of their own

As long as the ids drawn differ from each other, no two documents have the same id, closed documents
included. A document that has lost an id never has it again.
-/

set_option autoImplicit false

namespace SemanticHighlight

theorem Document.id_perform (fresh : String) (document : Document) (step : Step) :
    (document.perform fresh step).2.id =
      (document.drawn fresh step).getLast?.getD document.id := by
  cases step with
  | create pushes committed => cases committed <;> rfl
  | edit previous pushes committed =>
      refine Eq.trans ?_ (id_edit fresh previous document)
      cases committed <;> rfl
  | full => rfl
  | part span => rfl
  | edits => exact congrArg id (snd_edits document)

namespace Workspace

/-! ## Where a document is put -/

/-- The handle of an open URI, or the one that the URI gets when it is opened. -/
def place (uri : String) (workspace : Workspace) : Nat :=
  (workspace.handle? uri).getD workspace.sessions.length

theorem documentAt?_putAt {workspace : Workspace} {handle : Nat} (document : Document)
    (inside : handle < workspace.sessions.length) (other : Nat) :
    (workspace.putAt handle document).documentAt? other =
      if other = handle then some document else workspace.documentAt? other := by
  split
  · rename_i same
    rw [same]
    exact documentAt?_putAt_self document inside
  · rename_i apart
    exact documentAt?_putAt_of_ne document apart

theorem lt_length_of_documentAt? {workspace : Workspace} {handle : Nat} {document : Document}
    (stands : workspace.documentAt? handle = some document) :
    handle < workspace.sessions.length := by
  obtain ⟨session, member, _⟩ := Option.map_eq_some_iff.mp stands
  exact (List.getElem?_eq_some_iff.mp member).1

theorem documentAt?_put (workspace : Workspace) (uri : String) (document : Document)
    (handle : Nat) :
    (workspace.put uri document).documentAt? handle =
      if handle = workspace.place uri then some document else workspace.documentAt? handle := by
  unfold put place
  cases found : workspace.handle? uri with
  | some place => exact documentAt?_putAt document (handle?_lt_length found) handle
  | none =>
      dsimp only [Option.getD_none, documentAt?]
      split
      · rename_i last
        rw [last, List.getElem?_concat_length]
        rfl
      · rename_i apart
        rcases Nat.lt_or_gt_of_ne apart with inside | outside
        · rw [List.getElem?_append_left inside]
        · rw [List.getElem?_eq_none outside.le, List.getElem?_eq_none]
          rw [List.length_append, List.length_singleton]
          exact outside

theorem documentAt?_place_of_document? {workspace : Workspace} {uri : String} {document : Document}
    (found : workspace.document? uri = some document) :
    workspace.documentAt? (workspace.place uri) = some document := by
  obtain ⟨handle, isThere, stands⟩ := Option.bind_eq_some_iff.mp found
  rw [place, isThere]
  exact stands

/-! ## Runs with distinct ids -/

/-- The ids that a run draws, in the order in which it draws them. -/
def allDrawn (workspace : Workspace) : List (FreshIds × Call) → List String
  | [] => []
  | (fresh, call) :: calls =>
      workspace.drawn fresh call ++ (workspace.perform fresh call).2.allDrawn calls

theorem allDrawn_append (workspace : Workspace) (front later : List (FreshIds × Call)) :
    workspace.allDrawn (front ++ later) =
      workspace.allDrawn front ++ (workspace.run front).2.allDrawn later := by
  induction front generalizing workspace with
  | nil => rfl
  | cons turn front ih =>
      rw [List.cons_append, allDrawn, ih, ← List.append_assoc]
      rfl

/-- Each document has an id of its own, which is one of those drawn so far. -/
structure Distinct (past : List String) (workspace : Workspace) : Prop where
  drawn : workspace.All fun document => document.id ∈ past
  apart : ∀ left right leftDocument rightDocument,
    workspace.documentAt? left = some leftDocument →
      workspace.documentAt? right = some rightDocument →
        leftDocument.id = rightDocument.id → left = right

section Step

variable {past : List String} {workspace after : Workspace} {fresh : FreshIds}

theorem distinct_blank (blank : workspace.sessions = []) : Distinct [] workspace where
  drawn := All.ofBlank blank
  apart left _ _ _ stands := by
    rw [documentAt?, blank] at stands
    cases stands

theorem Distinct.mono (distinct : Distinct past workspace) (ids : List String) :
    Distinct (past ++ ids) workspace :=
  ⟨fun handle document stands => List.mem_append_left ids (distinct.drawn handle document stands),
    distinct.apart⟩

theorem Distinct.congr (distinct : Distinct past workspace)
    (same : ∀ handle, after.documentAt? handle = workspace.documentAt? handle) :
    Distinct past after where
  drawn handle document stands := distinct.drawn handle document (same handle ▸ stands)
  apart left right leftDocument rightDocument leftStands rightStands :=
    distinct.apart left right leftDocument rightDocument (same left ▸ leftStands)
      (same right ▸ rightStands)

/-- One document may change as long as it keeps its id or takes a new one. -/
theorem Distinct.changed (distinct : Distinct past workspace) {place : Nat} {document : Document}
    {ids : List String} (new : ∀ id ∈ ids, id ∉ past)
    (changes : ∀ handle, after.documentAt? handle =
      if handle = place then some document else workspace.documentAt? handle)
    (named : document.id ∈ ids ∨
      (workspace.documentAt? place).map Document.id = some document.id) :
    Distinct (past ++ ids) after := by
  -- A document that is not at this place has another id than the one that is there now.
  have elsewhere : ∀ handle other, handle ≠ place → workspace.documentAt? handle = some other →
      other.id ≠ document.id := by
    intro handle other apart stands same
    rcases named with drawn | kept
    · exact new document.id drawn (same ▸ distinct.drawn handle other stands)
    · obtain ⟨before, stood, unchanged⟩ := Option.map_eq_some_iff.mp kept
      exact apart (distinct.apart handle place other before stands stood
        (same.trans unchanged.symm))
  constructor
  · intro handle other stands
    rw [changes] at stands
    split at stands
    · cases stands
      rcases named with drawn | kept
      · exact List.mem_append_right past drawn
      · obtain ⟨before, stood, unchanged⟩ := Option.map_eq_some_iff.mp kept
        exact List.mem_append_left ids (unchanged ▸ distinct.drawn place before stood)
    · exact List.mem_append_left ids (distinct.drawn handle other stands)
  · intro left right leftDocument rightDocument leftStands rightStands same
    rw [changes] at leftStands rightStands
    split at leftStands <;> split at rightStands
    · simp_all
    · rename_i apart
      cases leftStands
      exact absurd same.symm (elsewhere right rightDocument apart rightStands)
    · rename_i apart _
      cases rightStands
      exact absurd same (elsewhere left leftDocument apart leftStands)
    · exact distinct.apart left right leftDocument rightDocument leftStands rightStands same

/-- The id of a document that is put is one of those drawn for it, or the one it had. -/
theorem named_of_put {uri : String} {document : Document} {ids : List String}
    (named : document.id = ids.getLast?.getD (workspace.documentFor fresh.opened uri).id) :
    document.id ∈ workspace.openingIds fresh.opened uri ++ ids ∨
      (workspace.document? uri).map Document.id = some document.id := by
  cases latest : ids.getLast? with
  | some id =>
      rw [latest] at named
      left
      rw [named]
      exact List.mem_append_right _ (List.mem_of_getLast? latest)
  | none =>
      rw [latest] at named
      cases found : workspace.document? uri with
      | some before =>
          right
          rw [named, documentFor_of_document? fresh.opened found]
          rfl
      | none =>
          left
          rw [named, documentFor_of_absent fresh.opened found,
            openingIds_of_absent fresh.opened found]
          exact List.mem_cons_self

theorem new_of_nodup {ids : List String} (once : (past ++ ids).Nodup) : ∀ id ∈ ids, id ∉ past :=
  fun id drawn before => (List.nodup_append.mp once).2.2 id before id drawn rfl

theorem Does.distinct {call : Call} {reply : Reply} (does : Does workspace fresh call reply after)
    (direct : call.isStep = false) (distinct : Distinct past workspace)
    (once : (past ++ workspace.drawn fresh call).Nodup) :
    Distinct (past ++ workspace.drawn fresh call) after := by
  cases does with
  | nothing => exact distinct.mono _
  | puts uri document ids about draws named =>
      refine distinct.changed (new_of_nodup once) (documentAt?_put workspace uri document) ?_
      rw [draws]
      refine (named_of_put named).imp_right fun kept => ?_
      obtain ⟨before, found, same⟩ := Option.map_eq_some_iff.mp kept
      rw [documentAt?_place_of_document? found, Option.map_some, same]
  | closes uri => exact (distinct.congr (documentAt?_close workspace uri)).mono _
  | clears => exact (distinct.congr (documentAt?_clear workspace)).mono _
  | steps => cases direct

theorem Distinct.performAt (distinct : Distinct past workspace) (handle : Nat)
    (step : Document.Step)
    (once : (past ++ workspace.drawn fresh (.step handle step)).Nodup) :
    Distinct (past ++ workspace.drawn fresh (.step handle step))
      (workspace.performAt fresh.encoded handle step).2 := by
  rw [Workspace.performAt]
  cases stands : workspace.documentAt? handle with
  | none => exact distinct.mono _
  | some document =>
      have draws : workspace.drawn fresh (.step handle step) =
          document.drawn fresh.encoded step := by
        simp only [Workspace.drawn, stands]
      have named : (document.perform fresh.encoded step).2.id ∈ document.drawn fresh.encoded step ∨
          (workspace.documentAt? handle).map Document.id =
            some (document.perform fresh.encoded step).2.id := by
        rw [Document.id_perform, stands]
        cases latest : (document.drawn fresh.encoded step).getLast? with
        | some id => exact Or.inl (List.mem_of_getLast? latest)
        | none => exact Or.inr rfl
      exact distinct.changed (new_of_nodup once)
        (documentAt?_putAt _ (lt_length_of_documentAt? stands)) (draws ▸ named)

theorem Distinct.perform (distinct : Distinct past workspace) {call : Call}
    (once : (past ++ workspace.drawn fresh call).Nodup) :
    Distinct (past ++ workspace.drawn fresh call) (workspace.perform fresh call).2 := by
  have does := does_perform fresh workspace call
  cases call with
  | step handle step => exact distinct.performAt handle step once
  | openDocument | full | fullDelta | part | contains | close | clear =>
      exact does.distinct rfl distinct once

/-- An id that was drawn before and that the document of a URI does not have is never its id
again. -/
theorem Does.superseded {call : Call} {reply : Reply} {uri id : String}
    (does : Does workspace fresh call reply after) (direct : call.isStep = false)
    (once : (past ++ workspace.drawn fresh call).Nodup) (known : id ∈ past)
    (superseded : (workspace.document? uri).map Document.id ≠ some id) :
    (after.document? uri).map Document.id ≠ some id := by
  cases does with
  | nothing => exact superseded
  | puts other document ids about draws named =>
      rw [document?_send, document?_put]
      split
      · rename_i same
        subst same
        rintro again
        have isId := Option.some.inj again
        rcases named_of_put named with drawn | kept
        · rw [← draws, isId] at drawn
          exact new_of_nodup once id drawn known
        · exact superseded (kept.trans again)
      · exact superseded
  | closes other =>
      rw [document?_close]
      split
      · exact nofun
      · exact superseded
  | clears =>
      rw [document?_clear]
      exact nofun
  | steps => cases direct

end Step

section Run

variable {past : List String} {workspace : Workspace} {calls : List (FreshIds × Call)}

theorem Distinct.run (distinct : Distinct past workspace)
    (once : (past ++ workspace.allDrawn calls).Nodup) :
    Distinct (past ++ workspace.allDrawn calls) (workspace.run calls).2 := by
  induction calls generalizing past workspace with
  | nil => exact distinct.mono []
  | cons turn calls ih =>
      rw [allDrawn, ← List.append_assoc] at once ⊢
      exact ih (distinct.perform (List.nodup_append.mp once).1) once

theorem superseded_run {uri id : String} (direct : ∀ turn ∈ calls, turn.2.isStep = false)
    (once : (past ++ workspace.allDrawn calls).Nodup) (known : id ∈ past)
    (superseded : (workspace.document? uri).map Document.id ≠ some id) :
    ((workspace.run calls).2.document? uri).map Document.id ≠ some id := by
  induction calls generalizing past workspace with
  | nil => exact superseded
  | cons turn calls ih =>
      obtain ⟨callDirect, restDirect⟩ := List.forall_mem_cons.mp direct
      rw [allDrawn, ← List.append_assoc] at once
      have does := does_perform turn.1 workspace turn.2
      exact ih restDirect once (List.mem_append_left _ known)
        (does.superseded callDirect (List.nodup_append.mp once).1 known superseded)

end Run

end Workspace

end SemanticHighlight
