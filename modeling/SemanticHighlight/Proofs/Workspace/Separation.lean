import Mathlib.Data.List.Nodup
import SemanticHighlight.Proofs.Workspace.Invariant
import SemanticHighlight.Proofs.Workspace.OpenUris

/-!
# URIs do not interfere

Calls on other URIs make no difference to a URI: the run that leaves them out replies the same to
those that are left, ends with the same document and tells the same of it. The two runs number their
sessions differently, so that a handle is compared by the document it leads to.
-/

set_option autoImplicit false

namespace SemanticHighlight

def Event.uri : Event → String
  | .updated uri _ | .closed uri => uri

namespace Workspace

/-- Whether a call has to do with a URI: it is about it, or about all. -/
def Call.concerns (uri : String) : Call → Bool
  | .clear => true
  | call => call.uri? == some uri

/-- What a reply lets the caller see. -/
inductive Sight where
  | document (document : Option Document)
  | reply (reply : Reply)

def Reply.sight (after : Workspace) : Reply → Sight
  | .opened handle => .document (after.documentAt? handle)
  | reply => .reply reply

/-- The calls of a run, each with what it lets its caller see. -/
def transcript (workspace : Workspace) : List (FreshIds × Call) → List (Call × Sight)
  | [] => []
  | (fresh, call) :: calls =>
      let performed := workspace.perform fresh call
      (call, performed.1.sight performed.2) :: performed.2.transcript calls

/-- The events that name a URI. -/
def eventsOf (uri : String) (workspace : Workspace) : List Event :=
  workspace.feed.log.filter fun event => event.uri = uri

/-- Two workspaces that a URI cannot tell apart. -/
structure AlikeFor (uri : String) (left right : Workspace) : Prop where
  terms : left.terms = right.terms
  document : left.document? uri = right.document? uri
  events : left.eventsOf uri = right.eventsOf uri

theorem eventsOf_put (workspace : Workspace) (uri other : String) (document : Document) :
    (workspace.put other document).eventsOf uri = workspace.eventsOf uri := by
  rw [eventsOf, feed_put, eventsOf]

theorem eventsOf_send (workspace : Workspace) (uri : String) (events : List Event) :
    (workspace.send events).eventsOf uri =
      workspace.eventsOf uri ++ events.filter fun event => event.uri = uri :=
  List.filter_append ..

theorem eventsOf_openDocument (workspace : Workspace) (fresh uri other : String) :
    (workspace.openDocument fresh uri).2.eventsOf other = workspace.eventsOf other := by
  unfold openDocument
  split
  · rfl
  · exact eventsOf_put workspace other uri _

theorem eventsOf_close (workspace : Workspace) (uri other : String) :
    (workspace.close uri).2.eventsOf other =
      workspace.eventsOf other ++
        if uri = other ∧ workspace.contains uri then [.closed uri] else [] := by
  unfold close
  by_cases isOpen : workspace.contains uri = true
  · rw [if_pos isOpen]
    refine (eventsOf_send _ _ _).trans (congrArg (workspace.eventsOf other ++ ·) ?_)
    by_cases same : uri = other
    · subst same
      simp [Event.uri, isOpen]
    · simp [Event.uri, same]
  · simp [isOpen]

/-- A URI that is open once is named once when everything is closed. -/
theorem eventsOf_clear {workspace : Workspace} (once : workspace.openUris.Nodup) (uri : String) :
    workspace.clear.eventsOf uri =
      workspace.eventsOf uri ++ if workspace.contains uri then [.closed uri] else [] := by
  have named : ((workspace.openUris.map Event.closed).filter fun event => event.uri = uri) =
      (workspace.openUris.filter (· == uri)).map .closed := by
    rw [List.filter_map]
    rfl
  refine (eventsOf_send _ _ _).trans (congrArg (workspace.eventsOf uri ++ ·) ?_)
  rw [named, List.filter_beq]
  split
  · rename_i isOpen
    rw [List.count_eq_one_of_mem once (mem_openUris_iff.mpr isOpen)]
    rfl
  · rename_i closed
    rw [List.count_eq_zero.mpr (closed ∘ mem_openUris_iff.mp)]
    rfl

theorem documentAt?_openDocument (workspace : Workspace) (fresh uri : String) :
    (workspace.openDocument fresh uri).2.documentAt? (workspace.openDocument fresh uri).1 =
      some (workspace.documentFor fresh uri) := by
  unfold openDocument
  cases found : workspace.handle? uri with
  | some handle =>
      obtain ⟨session, stands, _⟩ := handle?_sound found
      have shows : workspace.document? uri = some session.document := by
        simp [document?, found, documentAt?, stands]
      rw [documentFor_of_document? fresh shows]
      simp [documentAt?, stands]
  | none =>
      rw [documentFor_of_absent fresh (document?_eq_none_iff.mpr found)]
      simp [put, found, documentAt?]

/-! ## Calls on the URI -/

namespace AlikeFor

variable {uri : String} {left right : Workspace}

theorem refl (uri : String) (workspace : Workspace) : AlikeFor uri workspace workspace :=
  ⟨rfl, rfl, rfl⟩

theorem symm (alike : AlikeFor uri left right) : AlikeFor uri right left :=
  ⟨alike.terms.symm, alike.document.symm, alike.events.symm⟩

theorem trans {last : Workspace} (alike : AlikeFor uri left right)
    (onward : AlikeFor uri right last) : AlikeFor uri left last :=
  ⟨alike.terms.trans onward.terms, alike.document.trans onward.document,
    alike.events.trans onward.events⟩

theorem put (alike : AlikeFor uri left right) (document : Document) :
    AlikeFor uri (left.put uri document) (right.put uri document) where
  terms := by rw [terms_put, terms_put, alike.terms]
  document := by rw [document?_put_self, document?_put_self]
  events := by rw [eventsOf_put, eventsOf_put, alike.events]

theorem send (alike : AlikeFor uri left right) (events : List Event) :
    AlikeFor uri (left.send events) (right.send events) where
  terms := alike.terms
  document := alike.document
  events := by rw [eventsOf_send, eventsOf_send, alike.events]

theorem settings (alike : AlikeFor uri left right) : left.settings = right.settings :=
  congrArg Prod.fst alike.terms

theorem documentFor (alike : AlikeFor uri left right) (fresh : String) :
    left.documentFor fresh uri = right.documentFor fresh uri := by
  have legends : left.legend = right.legend := congrArg Prod.snd alike.terms
  rw [Workspace.documentFor, Workspace.documentFor, alike.document, legends]

theorem contains (alike : AlikeFor uri left right) : left.contains uri = right.contains uri := by
  rw [Workspace.contains, Workspace.contains, alike.document]

theorem serve (alike : AlikeFor uri left right) {α : Type} (start : Document → Document)
    (finish : Document → α × Document) (resultId : α → String) (fresh : FreshIds)
    (pushes : List Push) :
    (left.serve start finish resultId fresh uri pushes).1 =
        (right.serve start finish resultId fresh uri pushes).1 ∧
      AlikeFor uri (left.serve start finish resultId fresh uri pushes).2
        (right.serve start finish resultId fresh uri pushes).2 := by
  have same : (left.document? uri).getD (.new left.legend fresh.opened) =
      (right.document? uri).getD (.new right.legend fresh.opened) :=
    alike.documentFor fresh.opened
  unfold Workspace.serve
  rw [same]
  dsimp only
  split
  · exact ⟨rfl, alike.put _⟩
  · exact ⟨rfl, (alike.put _).send _⟩

theorem full (alike : AlikeFor uri left right) (fresh : FreshIds) (pushes : List Push) :
    (left.full fresh uri pushes).1 = (right.full fresh uri pushes).1 ∧
      AlikeFor uri (left.full fresh uri pushes).2 (right.full fresh uri pushes).2 := by
  unfold Workspace.full
  rw [alike.settings]
  split
  · exact alike.serve _ _ _ fresh pushes
  · exact ⟨rfl, alike⟩

theorem part (alike : AlikeFor uri left right) (fresh : FreshIds) (span : Span)
    (pushes : List Push) :
    (left.part fresh uri span pushes).1 = (right.part fresh uri span pushes).1 ∧
      AlikeFor uri (left.part fresh uri span pushes).2 (right.part fresh uri span pushes).2 := by
  unfold Workspace.part
  rw [alike.settings]
  split
  · exact ⟨rfl, alike⟩
  · split
    · exact alike.serve _ _ _ fresh pushes
    · exact ⟨rfl, alike⟩

theorem fullDelta (alike : AlikeFor uri left right) (fresh : FreshIds) (previous : String)
    (pushes : List Push) :
    (left.fullDelta fresh uri previous pushes).1 = (right.fullDelta fresh uri previous pushes).1 ∧
      AlikeFor uri (left.fullDelta fresh uri previous pushes).2
        (right.fullDelta fresh uri previous pushes).2 := by
  unfold Workspace.fullDelta
  rw [alike.settings]
  split
  · obtain ⟨same, after⟩ := alike.full fresh pushes
    dsimp only
    rw [same]
    exact ⟨rfl, after⟩
  · split
    · exact alike.serve _ _ _ fresh pushes
    · exact ⟨rfl, alike⟩

theorem openDocument (alike : AlikeFor uri left right) (fresh : FreshIds) :
    AlikeFor uri (left.openDocument fresh.opened uri).2 (right.openDocument fresh.opened uri).2 where
  terms := (terms_perform fresh left (.openDocument uri)).trans
    (alike.terms.trans (terms_perform fresh right (.openDocument uri)).symm)
  document := by
    rw [document?_openDocument, document?_openDocument, alike.documentFor, alike.document]
  events := by rw [eventsOf_openDocument, eventsOf_openDocument, alike.events]

theorem close (alike : AlikeFor uri left right) (fresh : FreshIds) :
    (left.close uri).1 = (right.close uri).1 ∧
      AlikeFor uri (left.close uri).2 (right.close uri).2 := by
  refine ⟨?_, ?_, ?_, ?_⟩
  · unfold Workspace.close
    rw [alike.contains]
    split <;> rfl
  · exact (terms_perform fresh left (.close uri)).trans
      (alike.terms.trans (terms_perform fresh right (.close uri)).symm)
  · rw [document?_close_self, document?_close_self]
  · rw [eventsOf_close, eventsOf_close, alike.events, alike.contains]

theorem clear (alike : AlikeFor uri left right) (leftOnce : left.openUris.Nodup)
    (rightOnce : right.openUris.Nodup) : AlikeFor uri left.clear right.clear where
  terms := alike.terms
  document := by rw [document?_clear, document?_clear]
  events := by
    rw [eventsOf_clear leftOnce, eventsOf_clear rightOnce, alike.events, alike.contains]

end AlikeFor

/-- A call that concerns the URI lets the caller see the same in both workspaces. -/
theorem AlikeFor.perform {uri : String} {left right : Workspace} (alike : AlikeFor uri left right)
    (leftOnce : left.openUris.Nodup) (rightOnce : right.openUris.Nodup) (fresh : FreshIds)
    {call : Call} (concerns : call.concerns uri = true) :
    (left.perform fresh call).1.sight (left.perform fresh call).2 =
        (right.perform fresh call).1.sight (right.perform fresh call).2 ∧
      AlikeFor uri (left.perform fresh call).2 (right.perform fresh call).2 := by
  cases call with
  | openDocument other =>
      cases Option.some.inj (beq_iff_eq.mp concerns)
      have leftShows := documentAt?_openDocument left fresh.opened uri
      have rightShows := documentAt?_openDocument right fresh.opened uri
      rw [← alike.documentFor] at rightShows
      exact ⟨congrArg Sight.document (leftShows.trans rightShows.symm),
        alike.openDocument fresh⟩
  | full other pushes =>
      cases Option.some.inj (beq_iff_eq.mp concerns)
      obtain ⟨same, after⟩ := alike.full fresh pushes
      exact ⟨congrArg (Sight.reply ∘ Reply.snapshot) same, after⟩
  | fullDelta other previous pushes =>
      cases Option.some.inj (beq_iff_eq.mp concerns)
      obtain ⟨same, after⟩ := alike.fullDelta fresh previous pushes
      exact ⟨congrArg (Sight.reply ∘ Reply.answer) same, after⟩
  | part other span pushes =>
      cases Option.some.inj (beq_iff_eq.mp concerns)
      obtain ⟨same, after⟩ := alike.part fresh span pushes
      exact ⟨congrArg (Sight.reply ∘ Reply.snapshot) same, after⟩
  | contains other =>
      cases Option.some.inj (beq_iff_eq.mp concerns)
      exact ⟨congrArg (Sight.reply ∘ Reply.flag) alike.contains, alike⟩
  | close other =>
      cases Option.some.inj (beq_iff_eq.mp concerns)
      obtain ⟨same, after⟩ := alike.close fresh
      exact ⟨congrArg (Sight.reply ∘ Reply.flag) same, after⟩
  | clear => exact ⟨rfl, alike.clear leftOnce rightOnce⟩
  | step handle step => cases concerns

/-! ## Calls on other URIs -/

theorem concerns_of_uri? {call : Call} {other : String} (about : call.uri? = some other)
    (uri : String) : call.concerns uri = (other == uri) := by
  cases call with
  | clear => cases about
  | step handle step => cases about
  | openDocument | full | fullDelta | part | contains | close =>
      cases about
      rfl

/-- A call on another URI leaves the workspace as it was for this one. -/
theorem Does.alikeFor {uri : String} {workspace after : Workspace} {fresh : FreshIds} {call : Call}
    {reply : Reply} (does : Does workspace fresh call reply after)
    (direct : call.isStep = false) (apart : call.concerns uri = false) :
    AlikeFor uri workspace after := by
  cases does with
  | nothing => exact .refl uri workspace
  | puts other document ids about draws named told =>
      rw [concerns_of_uri? about, beq_eq_false_iff_ne] at apart
      have unnamed : ((reply.resultIds.map (Event.updated other)).filter fun event =>
          event.uri = uri) = [] := by
        rw [List.filter_eq_nil_iff]
        intro event member
        obtain ⟨id, _, rfl⟩ := List.mem_map.mp member
        simp [Event.uri, apart]
      refine ⟨(terms_put workspace other document).symm, ?_, ?_⟩
      · rw [document?_send, document?_put_of_ne document (Ne.symm apart)]
      · rw [eventsOf_send, eventsOf_put, unnamed, List.append_nil]
  | closes other isOpen =>
      rw [concerns_of_uri? rfl, beq_eq_false_iff_ne] at apart
      refine ⟨(terms_perform fresh workspace (.close other)).symm, ?_, ?_⟩
      · rw [document?_close, if_neg (Ne.symm apart)]
      · rw [eventsOf_close, if_neg fun both => apart both.1, List.append_nil]
  | clears => cases apart
  | steps => cases direct

/-! ## Runs -/

/-- Where two workspaces are alike for a URI, one may leave out the calls that do not concern it. -/
theorem AlikeFor.run {uri : String} {left right : Workspace} (alike : AlikeFor uri left right)
    (leftOnce : left.openUris.Nodup) (rightOnce : right.openUris.Nodup)
    {calls : List (FreshIds × Call)} (direct : ∀ turn ∈ calls, turn.2.isStep = false) :
    let kept := calls.filter fun turn => turn.2.concerns uri
    (left.transcript calls).filter (fun entry => entry.1.concerns uri) = right.transcript kept ∧
      AlikeFor uri (left.run calls).2 (right.run kept).2 := by
  intro kept
  induction calls generalizing left right with
  | nil => exact ⟨rfl, alike⟩
  | cons turn calls ih =>
      obtain ⟨fresh, call⟩ := turn
      obtain ⟨callDirect, restDirect⟩ := List.forall_mem_cons.mp direct
      have does := does_perform fresh left call
      have leftNext := does.nodup_openUris leftOnce
      cases concerns : call.concerns uri with
      | true =>
          obtain ⟨sameSight, after⟩ := alike.perform leftOnce rightOnce fresh concerns
          have rightNext := (does_perform fresh right call).nodup_openUris rightOnce
          obtain ⟨sameLater, alikeLater⟩ := ih after leftNext rightNext restDirect
          have keeps : kept = (fresh, call) :: calls.filter fun turn => turn.2.concerns uri :=
            List.filter_cons_of_pos concerns
          rw [keeps]
          refine ⟨?_, alikeLater⟩
          simp only [transcript, List.filter_cons, concerns, ↓reduceIte, sameSight, sameLater]
      | false =>
          have unseen := does.alikeFor callDirect concerns
          obtain ⟨sameLater, alikeLater⟩ :=
            ih (unseen.symm.trans alike) leftNext rightOnce restDirect
          have drops : kept = calls.filter fun turn => turn.2.concerns uri :=
            List.filter_cons_of_neg (ne_true_of_eq_false concerns)
          rw [drops]
          refine ⟨?_, alikeLater⟩
          simp only [transcript, List.filter_cons, concerns, Bool.false_eq_true, ↓reduceIte,
            sameLater]

/-- A run in which only the calls that concern a URI are left, with the ids that they had, replies
to them and ends for the URI as the whole run does, and tells the same of it. -/
theorem run_alone {start : Workspace} (blank : start.sessions = [])
    {calls : List (FreshIds × Call)} (direct : ∀ turn ∈ calls, turn.2.isStep = false)
    (uri : String) :
    let kept := calls.filter fun turn => turn.2.concerns uri
    (start.transcript calls).filter (fun entry => entry.1.concerns uri) =
        start.transcript kept ∧
      (start.run calls).2.document? uri = (start.run kept).2.document? uri ∧
      (start.run calls).2.eventsOf uri = (start.run kept).2.eventsOf uri := by
  intro kept
  have once : start.openUris.Nodup := by
    rw [openUris_of_blank blank]
    exact List.nodup_nil
  obtain ⟨sameSights, alike⟩ := (AlikeFor.refl uri start).run once once direct
  exact ⟨sameSights, alike.document, alike.events⟩

/-- Between two closings of all, a request on the left fails, one is repeated and one is closed. -/
theorem run_alone_between_closings :
    let start : Workspace := ⟨.standard, ⟨[], []⟩, [], .empty⟩
    let word := Push.token ⟨0, 0, 3, 0, 0⟩
    let broken := Push.encodedSpan ⟨⟨1, 4⟩, ⟨2, 0⟩⟩ 0 0
    let calls : List (FreshIds × Call) :=
      [(⟨"a", "b"⟩, .openDocument "right"), (⟨"c", "d"⟩, .full "left" [word]),
        (⟨"e", "f"⟩, .full "right" [word, word]), (⟨"g", "h"⟩, .fullDelta "left" "d" [broken]),
        (⟨"i", "j"⟩, .close "left"), (⟨"k", "l"⟩, .clear),
        (⟨"m", "n"⟩, .fullDelta "right" "f" [word]), (⟨"o", "p"⟩, .full "left" [word])]
    let kept : List (FreshIds × Call) :=
      [(⟨"c", "d"⟩, .full "left" [word]), (⟨"g", "h"⟩, .fullDelta "left" "d" [broken]),
        (⟨"i", "j"⟩, .close "left"), (⟨"k", "l"⟩, .clear), (⟨"o", "p"⟩, .full "left" [word])]
    start.sessions = [] ∧ (∀ turn ∈ calls, turn.2.isStep = false) ∧
      (start.transcript calls).filter (fun entry => entry.1.concerns "left") =
        start.transcript kept ∧
      (start.run calls).2.document? "left" = some ⟨⟨[], []⟩, "p", [0, 0, 3, 0, 0], none⟩ ∧
      (start.run calls).2.eventsOf "left" =
        [.updated "left" "d", .closed "left", .updated "left" "p"] := by
  intro start word broken calls kept
  have direct : ∀ turn ∈ calls, turn.2.isStep = false := by decide
  obtain ⟨sameSights, sameDocument, sameEvents⟩ := @run_alone start rfl calls direct "left"
  exact ⟨rfl, direct, sameSights, sameDocument.trans (by decide +kernel), sameEvents.trans (by decide +kernel)⟩

end Workspace

end SemanticHighlight
