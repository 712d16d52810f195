import SemanticHighlight.Proofs.Exchange
import SemanticHighlight.Proofs.Workspace.DistinctIds
import SemanticHighlight.Proofs.Workspace.Issued
import SemanticHighlight.Proofs.Workspace.Readable
import SemanticHighlight.Proofs.Workspace.Separation

/-!
# Answers under one id

A request for edits with the current id is answered under that id, so that an id may stand for
several arrays, one after the other. What it stands for is a chain: between two answers under one id
there are only deltas under that id, and they lead from the array of the first to that of the last.
-/

set_option autoImplicit false

namespace SemanticHighlight

/-- Makes the edits of deltas one after the other. Each is made as a whole. -/
def Delta.applyInTurn (data : List UInt32) (deltas : List Delta) : Except Fault (List UInt32) :=
  deltas.foldlM (fun held delta => Edit.applyAll held delta.edits) data

theorem Delta.applyInTurn_cons (data : List UInt32) (delta : Delta) (deltas : List Delta) :
    applyInTurn data (delta :: deltas) =
      Edit.applyAll data delta.edits >>= fun held => applyInTurn held deltas :=
  rfl

theorem Delta.applyInTurn_snoc (data : List UInt32) (deltas : List Delta) (delta : Delta) :
    applyInTurn data (deltas ++ [delta]) =
      applyInTurn data deltas >>= fun held => Edit.applyAll held delta.edits := by
  simp only [applyInTurn, List.foldlM_append, List.foldlM_cons, List.foldlM_nil, bind_pure]

namespace Workspace

/-- What a call answers about a URI. Parts of a document do not count. -/
def Call.answerFor? (uri : String) (call : Call) (reply : Reply) : Option Answer :=
  (call.answer? reply).bind fun told => if told.1 = uri then some told.2 else none

/-- The answers about a URI in the course of a run. -/
def answersFor (uri : String) (workspace : Workspace) : List (FreshIds × Call) → List Answer
  | [] => []
  | (fresh, call) :: calls =>
      let performed := workspace.perform fresh call
      (call.answerFor? uri performed.1).toList ++ performed.2.answersFor uri calls

/-- No array that a URI has in the course of a run is too long for edits to count its words. -/
def ShortIn (uri : String) (workspace : Workspace) (calls : List (FreshIds × Call)) : Prop :=
  ∀ done, done <+: calls → ((workspace.run done).2.dataOf uri).length < UInt32.size

/-! ## One call -/

section Step

variable {past : List String} {workspace : Workspace} {fresh : FreshIds} {uri : String}

theorem Renews.renewed {α : Type} {pushes : List Push} {answer : List UInt32 → α}
    {served : Response α × Workspace} (renews : workspace.Renews fresh uri pushes answer served) :
    (served.2.document? uri).map Document.id = some fresh.encoded := by
  rcases renews with ⟨_, _, rfl⟩ | ⟨_, _, rfl⟩
  · rw [document?_put_self]
    rfl
  · rw [document?_send, document?_put_self]
    rfl

/-- Whole arrays and edits are all that is answered about a URI. -/
theorem answerFor?_cases {call : Call} {reply : Reply} {answer : Answer}
    (told : call.answerFor? uri reply = some answer) :
    (∃ pushes snapshot trace, call = .full uri pushes ∧
        reply = .snapshot ⟨.ok (some snapshot), trace⟩ ∧ answer = .full snapshot) ∨
      ∃ previous pushes trace, call = .fullDelta uri previous pushes ∧
        reply = .answer ⟨.ok (some answer), trace⟩ := by
  obtain ⟨⟨other, shown⟩, answers, isFor⟩ := Option.bind_eq_some_iff.mp told
  obtain ⟨same, isAnswer⟩ := Option.ite_none_right_eq_some.mp isFor
  cases same
  cases isAnswer
  unfold Call.answer? at answers
  split at answers
  · cases answers
    exact Or.inl ⟨_, _, _, rfl, rfl, rfl⟩
  · cases answers
    exact Or.inr ⟨_, _, _, rfl, rfl⟩
  · cases answers

theorem answerFor?_of_unconcerned {call : Call} {reply : Reply}
    (apart : call.concerns uri = false) : call.answerFor? uri reply = none := by
  rw [Option.eq_none_iff_forall_ne_some]
  intro answer told
  rcases answerFor?_cases told with ⟨_, _, _, rfl, _⟩ | ⟨_, _, _, rfl, _⟩
  · exact beq_eq_false_iff_ne.mp apart rfl
  · exact beq_eq_false_iff_ne.mp apart rfl

variable {pushes : List Push} {before after : Document}

theorem answerFor?_fullDelta (uri previous : String) (pushes : List Push)
    (response : Response Answer) :
    Call.answerFor? uri (.fullDelta uri previous pushes) (.answer response) =
      response.result.toOption.join := by
  obtain ⟨_ | (_ | answer), _⟩ := response
  · rfl
  · rfl
  · exact if_pos rfl

/-- Where a request renews a document, its id is not one drawn before. -/
theorem id_ne_of_renewed {reached : Workspace} {ids : List String} {id : String}
    (renewed : (reached.document? uri).map Document.id = some fresh.encoded)
    (kept : reached.document? uri = some after) (once : (past ++ (ids ++ [fresh.encoded])).Nodup)
    (known : id ∈ past) : after.id ≠ id := by
  rw [kept, Option.map_some, Option.some.injEq] at renewed
  rw [renewed]
  rintro same
  have drawn : fresh.encoded ∈ ids ++ [fresh.encoded] :=
    List.mem_append_right ids List.mem_cons_self
  exact new_of_nodup once fresh.encoded drawn (same ▸ known)

theorem full_under_id (found : workspace.document? uri = some before) (known : before.id ∈ past)
    (once : (past ++ if workspace.settings.enabled && workspace.settings.full then
      workspace.openingIds fresh.opened uri ++ [fresh.encoded] else []).Nodup)
    (kept : (workspace.full fresh uri pushes).2.document? uri = some after)
    (same : after.id = before.id) :
    workspace.full fresh uri pushes = (⟨.ok none, none⟩, workspace) ∧ after = before := by
  by_cases admitted : (workspace.settings.enabled && workspace.settings.full) = true
  · rw [if_pos admitted] at once
    have renewed := Renews.renewed (@renews_full _ fresh uri pushes admitted)
    exact absurd same (id_ne_of_renewed renewed kept once known)
  · have refused := @full_of_refused _ fresh uri pushes admitted
    rw [refused, found] at kept
    exact ⟨refused, (Option.some.inj kept).symm⟩

theorem part_under_id {span : Span} (found : workspace.document? uri = some before)
    (known : before.id ∈ past)
    (once : (past ++ workspace.drawn fresh (.part uri span pushes)).Nodup)
    (kept : (workspace.part fresh uri span pushes).2.document? uri = some after)
    (same : after.id = before.id) : after = before := by
  by_cases admitted : (workspace.settings.enabled && workspace.settings.range) = true
  · simp only [drawn, admitted, ↓reduceIte] at once
    have renewed := Renews.renewed (@renews_part _ fresh uri pushes span admitted)
    exact absurd same (id_ne_of_renewed renewed kept once known)
  · obtain ⟨_, refused⟩ := @part_of_refused _ fresh uri pushes span admitted
    rw [refused, found] at kept
    exact (Option.some.inj kept).symm

/-- What a request for edits does that leaves the document under its id: it comes to nothing, or is
answered by the edit that it makes. -/
theorem fullDelta_under_id {previous : String} (found : workspace.document? uri = some before)
    (known : before.id ∈ past)
    (once : (past ++ workspace.drawn fresh (.fullDelta uri previous pushes)).Nodup)
    (kept : (workspace.fullDelta fresh uri previous pushes).2.document? uri = some after)
    (same : after.id = before.id) :
    (workspace.fullDelta fresh uri previous pushes).1.result.toOption.join = none ∧
        after.data = before.data ∨
      (workspace.fullDelta fresh uri previous pushes).1.result.toOption.join =
        some (.delta ⟨before.id, [.between before.data after.data]⟩) := by
  cases delta : workspace.settings.delta with
  | false =>
      simp only [drawn, delta, Bool.not_false, ↓reduceIte] at once
      rw [fullDelta_of_off delta] at kept ⊢
      obtain ⟨refused, unchanged⟩ := full_under_id found known once kept same
      rw [refused]
      exact Or.inl ⟨rfl, congrArg Document.data unchanged⟩
  | true =>
      cases enabled : workspace.settings.enabled with
      | false =>
          rw [fullDelta_of_disabled delta enabled] at kept ⊢
          rw [found, Option.some.injEq] at kept
          exact Or.inl ⟨rfl, congrArg Document.data kept.symm⟩
      | true =>
          have opens := documentFor_of_document? fresh.opened found
          by_cases current : previous = (workspace.documentFor fresh.opened uri).id
          · have served :=
              @fullDelta_cases_of_current _ fresh uri previous pushes delta enabled current
            dsimp only at served
            rw [opens] at served
            rcases served with ⟨_, _, failed⟩ | ⟨draft, _, answered⟩
            · rw [failed] at kept ⊢
              rw [document?_put_self, Option.some.injEq] at kept
              subst kept
              exact Or.inl ⟨rfl, rfl⟩
            · rw [answered] at kept ⊢
              rw [document?_send, document?_put_self, Option.some.injEq] at kept
              subst kept
              exact Or.inr rfl
          · have renewed :=
              Renews.renewed (@renews_fullDelta_of_stale _ fresh uri _ pushes delta enabled current)
            rw [drawn_fullDelta delta enabled, Document.editIds, if_neg current] at once
            exact absurd same (id_ne_of_renewed renewed kept once known)

/-- A call that leaves the document of a URI under its id leaves its array as it is and answers
nothing about it, or answers with the edit that it makes. -/
theorem perform_under_id {call : Call} (direct : call.isStep = false)
    (found : workspace.document? uri = some before) (known : before.id ∈ past)
    (once : (past ++ workspace.drawn fresh call).Nodup)
    (kept : (workspace.perform fresh call).2.document? uri = some after)
    (same : after.id = before.id) :
    call.answerFor? uri (workspace.perform fresh call).1 = none ∧ after.data = before.data ∨
      call.answerFor? uri (workspace.perform fresh call).1 =
        some (.delta ⟨before.id, [.between before.data after.data]⟩) := by
  cases concerns : call.concerns uri with
  | false =>
      have alike := (does_perform fresh workspace call).alikeFor direct concerns
      rw [← alike.document, found, Option.some.injEq] at kept
      exact Or.inl ⟨answerFor?_of_unconcerned concerns, congrArg Document.data kept.symm⟩
  | true =>
      cases call with
      | openDocument other =>
          cases Option.some.inj (beq_iff_eq.mp concerns)
          have opened := document?_openDocument workspace fresh.opened uri uri
          rw [if_pos rfl, documentFor_of_document? fresh.opened found] at opened
          cases opened.symm.trans kept
          exact Or.inl ⟨rfl, rfl⟩
      | full other pushes =>
          cases Option.some.inj (beq_iff_eq.mp concerns)
          obtain ⟨refused, unchanged⟩ := full_under_id found known once kept same
          rw [perform_full refused]
          exact Or.inl ⟨rfl, congrArg Document.data unchanged⟩
      | fullDelta other previous pushes =>
          cases Option.some.inj (beq_iff_eq.mp concerns)
          have told := answerFor?_fullDelta uri previous pushes
            (workspace.fullDelta fresh uri previous pushes).1
          change Call.answerFor? uri (.fullDelta uri previous pushes) (.answer _) = none ∧ _ ∨
            Call.answerFor? uri (.fullDelta uri previous pushes) (.answer _) = _
          rw [told]
          exact fullDelta_under_id found known once kept same
      | part other span pushes =>
          cases Option.some.inj (beq_iff_eq.mp concerns)
          exact Or.inl ⟨rfl, congrArg Document.data (part_under_id found known once kept same)⟩
      | contains other =>
          cases found.symm.trans kept
          exact Or.inl ⟨rfl, rfl⟩
      | close other =>
          cases Option.some.inj (beq_iff_eq.mp concerns)
          cases (document?_close_self workspace uri).symm.trans kept
      | clear => cases (document?_clear workspace uri).symm.trans kept
      | step => cases direct

end Step

/-! ## Runs -/

theorem Call.Drafts.whole {legend : Legend} {draft : Draft} {call : Call}
    (drafts : call.Drafts legend draft) : draft.data.toList.length % wordsPerToken = 0 := by
  cases call with
  | full | fullDelta | part => exact (Draft.writes_empty.pushAll drafts).whole
  | step handle taken =>
      cases drafts
      exact (Draft.writes_empty.pushEach taken.pushes).whole
  | openDocument | contains | close | clear => cases drafts

section Run

variable {past : List String} {workspace : Workspace} {uri : String}

theorem dataOf_of_document? {document : Document}
    (found : workspace.document? uri = some document) : workspace.dataOf uri = document.data := by
  rw [dataOf, found]
  rfl

theorem ShortIn.later {turn : FreshIds × Call} {calls : List (FreshIds × Call)}
    (short : workspace.ShortIn uri (turn :: calls)) :
    (workspace.perform turn.1 turn.2).2.ShortIn uri calls :=
  fun done part => short (turn :: done) (List.cons_prefix_cons.mpr ⟨rfl, part⟩)

theorem answersFor_append (uri : String) (workspace : Workspace)
    (front later : List (FreshIds × Call)) :
    workspace.answersFor uri (front ++ later) =
      workspace.answersFor uri front ++ (workspace.run front).2.answersFor uri later := by
  induction front generalizing workspace with
  | nil => rfl
  | cons turn front ih =>
      rw [List.cons_append, answersFor, ih, ← List.append_assoc]
      rfl

theorem All.wholeTokens_perform
    (whole : workspace.All fun document => document.legend = workspace.legend ∧ document.Whole)
    (fresh : FreshIds) (call : Call) :
    let after := (workspace.perform fresh call).2
    after.All fun document => document.legend = after.legend ∧ document.Whole := by
  intro after
  rw [show after.legend = workspace.legend from
    congrArg Prod.snd (terms_perform fresh workspace call)]
  exact All.perform (Document.stable_whole workspace.legend) whole fresh
    fun _ drafts => Call.Drafts.whole drafts

theorem all_wholeTokens_run {start : Workspace} (blank : start.sessions = [])
    (calls : List (FreshIds × Call)) :
    let after := (start.run calls).2
    after.All fun document => document.legend = after.legend ∧ document.Whole := by
  intro after
  rw [show after.legend = start.legend from legend_run start calls]
  exact All.run (Document.stable_whole start.legend) (All.ofBlank blank)
    fun _ _ _ drafts => Call.Drafts.whole drafts

/-- In a run that leaves a document under its id, deltas lead from its array to the one that it has
at the end. -/
theorem run_under_id {before after : Document} {calls : List (FreshIds × Call)}
    (whole : workspace.All fun document =>
      document.legend = workspace.legend ∧ document.Whole)
    (direct : ∀ turn ∈ calls, turn.2.isStep = false)
    (once : (past ++ workspace.allDrawn calls).Nodup)
    (found : workspace.document? uri = some before) (known : before.id ∈ past)
    (kept : (workspace.run calls).2.document? uri = some after) (same : after.id = before.id) :
    ∃ deltas : List Delta, workspace.answersFor uri calls = deltas.map .delta ∧
      (∀ delta ∈ deltas, delta.resultId = before.id) ∧
      (workspace.ShortIn uri calls → Delta.applyInTurn before.data deltas = .ok after.data) := by
  induction calls generalizing past workspace before with
  | nil =>
      cases found.symm.trans kept
      exact ⟨[], rfl, nofun, fun _ => rfl⟩
  | cons turn calls ih =>
      obtain ⟨fresh, call⟩ := turn
      obtain ⟨callDirect, restDirect⟩ := List.forall_mem_cons.mp direct
      rw [allDrawn, ← List.append_assoc] at once
      have onceCall := (List.nodup_append.mp once).1
      have knownStill := List.mem_append_left (workspace.drawn fresh call) known
      -- The document has not lost its id in between, or it would not have it at the end.
      have held : ((workspace.perform fresh call).2.document? uri).map Document.id =
          some before.id := by
        by_contra lost
        have gone := superseded_run restDirect once knownStill lost
        change ((workspace.run ((fresh, call) :: calls)).2.document? uri).map _ ≠ _ at gone
        rw [kept, Option.map_some, same] at gone
        exact gone rfl
      obtain ⟨middle, stands, sameMiddle⟩ := Option.map_eq_some_iff.mp held
      have wholeNext := whole.wholeTokens_perform fresh call
      obtain ⟨deltas, answered, named, leads⟩ := ih wholeNext restDirect once stands
        (sameMiddle ▸ knownStill) kept (same.trans sameMiddle.symm)
      rw [sameMiddle] at named
      rw [answersFor, answered]
      rcases perform_under_id callDirect found known onceCall stands sameMiddle with
        ⟨silent, unchanged⟩ | told
      · rw [silent, ← unchanged]
        exact ⟨deltas, rfl, named, fun short => leads short.later⟩
      · rw [told]
        refine ⟨⟨before.id, [.between before.data middle.data]⟩ :: deltas, rfl, ?_, ?_⟩
        · exact List.forall_mem_cons.mpr ⟨rfl, named⟩
        · intro short
          have fits : before.data.length < UInt32.size := by
            rw [← dataOf_of_document? found]
            exact short [] List.nil_prefix
          have wholeMiddle := (wholeNext.document? stands).2
          rw [Delta.applyInTurn_cons, Edit.applyAll_between fits wholeMiddle]
          exact leads short.later

/-- A delta is answered under the id that it was asked for with. -/
theorem asked_of_delta {fresh : FreshIds} {previous : String} {pushes : List Push} {delta : Delta}
    {trace : Option (List Nat)} {after : Workspace}
    (served : workspace.fullDelta fresh uri previous pushes =
      (⟨.ok (some (.delta delta)), trace⟩, after)) : previous = delta.resultId := by
  cases on : workspace.settings.delta with
  | false =>
      rw [fullDelta_of_off on] at served
      generalize workspace.full fresh uri pushes = whole at served
      obtain ⟨⟨_ | (_ | snapshot), _⟩, _⟩ := whole <;> cases served
  | true =>
      cases enabled : workspace.settings.enabled with
      | false =>
          rw [fullDelta_of_disabled on enabled] at served
          cases served
      | true =>
          by_cases current : previous = (workspace.documentFor fresh.opened uri).id
          · rcases @fullDelta_cases_of_current _ fresh uri previous pushes on enabled current with
              ⟨_, _, failed⟩ | ⟨_, _, answered⟩
            · rw [failed] at served
              cases served
            · rw [answered] at served
              cases served
              exact current
          · rcases @renews_fullDelta_of_stale _ fresh uri previous pushes on enabled current with
              ⟨_, _, failed⟩ | ⟨_, _, answered⟩
            · rw [failed] at served
              cases served
            · rw [answered] at served
              cases served

/-- What an answer says is what the document is behind it. -/
theorem document_of_answer {turn : FreshIds × Call} {answer : Answer}
    (told : workspace.answersFor uri [turn] = [answer]) :
    turn.2.isStep = false ∧
      (∀ delta, answer = .delta delta → turn.2.asked = [delta.resultId]) ∧
      ∃ document, (workspace.run [turn]).2.document? uri = some document ∧
        document.id = answer.resultId ∧
        ∀ snapshot, answer = .full snapshot → snapshot.data = document.data := by
  obtain ⟨fresh, call⟩ := turn
  rw [answersFor, answersFor, List.append_nil, Option.toList_eq_singleton_iff] at told
  rcases answerFor?_cases told with
    ⟨pushes, snapshot, trace, rfl, replied, rfl⟩ | ⟨previous, pushes, trace, rfl, replied⟩
  · have answered := congrArg Response.result (Reply.snapshot.inj replied)
    obtain ⟨document, found, _, rfl⟩ := full_answer (reply_of_result answered)
    refine ⟨rfl, nofun, document, found, rfl, ?_⟩
    rintro _ ⟨⟩
    rfl
  · have answered := congrArg Response.result (Reply.answer.inj replied)
    have served := reply_of_result answered
    obtain ⟨document, found, rfl⟩ := fullDelta_answer served
    refine ⟨rfl, ?_, document, found, (Document.resultId_edits document).symm, ?_⟩
    · intro delta isDelta
      rw [isDelta] at served
      exact congrArg (fun id => [id]) (asked_of_delta served)
    · intro snapshot isFull
      unfold Document.edits at isFull
      split at isFull
      · cases isFull
        rfl
      · cases isFull

/-- Where only deltas are answered in a run, its last answer is the last of them. -/
theorem exists_last_delta {middle : List (FreshIds × Call)} {last : FreshIds × Call}
    {deltas : List Delta} {answer : Answer}
    (answered : workspace.answersFor uri (middle ++ [last]) = deltas.map .delta)
    (told : (workspace.run middle).2.answersFor uri [last] = [answer]) :
    ∃ sent delta, deltas = sent ++ [delta] ∧ answer = .delta delta ∧
      workspace.answersFor uri middle = sent.map .delta := by
  rw [answersFor_append, told] at answered
  obtain ⟨sent, rest, rfl, sentAnswers, restAnswers⟩ := List.map_eq_append_iff.mp answered.symm
  obtain ⟨delta, rfl, rfl⟩ := List.map_eq_singleton_iff.mp restAnswers
  exact ⟨sent, delta, rfl, rfl, sentAnswers.symm⟩

/-- From a moment of a run on that leaves a document under its id, deltas lead from the array that
the document has then to the one that it has at the end. -/
theorem run_under_id_of_blank {start : Workspace} (blank : start.sessions = [])
    {done later : List (FreshIds × Call)} (direct : ∀ turn ∈ later, turn.2.isStep = false)
    (once : (start.allDrawn (done ++ later)).Nodup) {before after : Document}
    (found : (start.run done).2.document? uri = some before)
    (kept : (start.run (done ++ later)).2.document? uri = some after)
    (same : after.id = before.id) :
    let held := (start.run done).2
    ∃ deltas, held.answersFor uri later = deltas.map .delta ∧
      (∀ delta ∈ deltas, delta.resultId = before.id) ∧
      (held.ShortIn uri later → Delta.applyInTurn before.data deltas = .ok after.data) := by
  intro held
  rw [allDrawn_append] at once
  have distinct := (distinct_blank blank).run (List.nodup_append.mp once).1
  have known : before.id ∈ start.allDrawn done := distinct.drawn.document? found
  rw [run_append] at kept
  exact run_under_id (all_wholeTokens_run blank done) direct once found known kept same

end Run

/-- Between two answers for a URI under one id there are only deltas under that id, and they lead
from the array that was committed at the first to that at the second. So whoever asks for edits with
an id that was answered once is told a new id, or is sent a delta that fits the array to which the
deltas sent under the id have led since. -/
theorem leads_on_of_same_id {start : Workspace} (blank : start.sessions = []) {uri : String}
    {front middle : List (FreshIds × Call)} {first last : FreshIds × Call}
    (direct : ∀ turn ∈ middle, turn.2.isStep = false)
    (once : (start.allDrawn (front ++ first :: (middle ++ [last]))).Nodup) {one other : Answer}
    (told : (start.run front).2.answersFor uri [first] = [one])
    (again : (start.run (front ++ first :: middle)).2.answersFor uri [last] = [other]) :
    let held := (start.run (front ++ [first])).2
    let reached := (start.run (front ++ first :: (middle ++ [last]))).2
    (∀ snapshot, one = .full snapshot → snapshot.data = held.dataOf uri) ∧
      (other.resultId = one.resultId →
        ∃ deltas, held.answersFor uri (middle ++ [last]) = deltas.map .delta ∧
          (∀ delta ∈ deltas, delta.resultId = one.resultId) ∧
          (held.ShortIn uri (middle ++ [last]) →
            Delta.applyInTurn (held.dataOf uri) deltas = .ok (reached.dataOf uri))) ∧
      (last.2.asked = [one.resultId] →
        (∃ snapshot, other = .full snapshot ∧ snapshot.resultId ≠ one.resultId) ∨
          ∃ delta sent, other = .delta delta ∧ delta.resultId = one.resultId ∧
            held.answersFor uri middle = sent.map .delta ∧
            (∀ earlier ∈ sent, earlier.resultId = one.resultId) ∧
            (held.ShortIn uri (middle ++ [last]) →
              ∃ patched, Delta.applyInTurn (held.dataOf uri) sent = .ok patched ∧
                Edit.applyAll patched delta.edits = .ok (reached.dataOf uri))) := by
  intro held reached
  have split : front ++ first :: (middle ++ [last]) = front ++ [first] ++ (middle ++ [last]) := by
    rw [List.append_assoc, List.singleton_append]
  have middleReached : (start.run (front ++ first :: middle)).2 = (held.run middle).2 := by
    rw [← run_append, List.append_assoc, List.singleton_append]
  have lastReached : reached = ((held.run middle).2.run [last]).2 := by
    rw [← run_append, ← run_append, ← split]
  rw [middleReached] at again
  obtain ⟨_, _, before, found, named, saysData⟩ := document_of_answer told
  rw [← run_append] at found
  obtain ⟨lastDirect, asksDelta, after, kept, namedAgain, _⟩ := document_of_answer again
  rw [← lastReached] at kept
  have leadsOn : other.resultId = one.resultId →
      ∃ deltas, held.answersFor uri (middle ++ [last]) = deltas.map .delta ∧
        (∀ delta ∈ deltas, delta.resultId = one.resultId) ∧
        (held.ShortIn uri (middle ++ [last]) →
          Delta.applyInTurn (held.dataOf uri) deltas = .ok (reached.dataOf uri)) := by
    intro same
    have allDirect : ∀ turn ∈ middle ++ [last], turn.2.isStep = false :=
      List.forall_mem_append.mpr ⟨direct, List.forall_mem_singleton.mpr lastDirect⟩
    rw [dataOf_of_document? found, dataOf_of_document? kept, ← named]
    exact run_under_id_of_blank blank allDirect (split ▸ once) found (split ▸ kept)
      (namedAgain.trans (same.trans named.symm))
  refine ⟨?_, leadsOn, fun asks => ?_⟩
  · intro snapshot full
    rw [saysData snapshot full, dataOf_of_document? found]
  · by_cases same : other.resultId = one.resultId
    · obtain ⟨deltas, answered, allNamed, leads⟩ := leadsOn same
      obtain ⟨sent, delta, rfl, rfl, sentAnswers⟩ := exists_last_delta answered again
      refine Or.inr ⟨delta, sent, rfl, same, sentAnswers,
        fun earlier member => allNamed earlier (List.mem_append_left _ member), fun short => ?_⟩
      have patches := leads short
      rw [Delta.applyInTurn_snoc] at patches
      cases patched : Delta.applyInTurn (held.dataOf uri) sent with
      | error fault =>
          rw [patched] at patches
          cases patches
      | ok data =>
          rw [patched] at patches
          exact ⟨data, rfl, patches⟩
    · -- A delta has the id that was asked for, so under another id there is a whole array.
      cases other with
      | full snapshot => exact Or.inl ⟨snapshot, rfl, same⟩
      | delta delta =>
          have asked : delta.resultId = one.resultId :=
            List.head_eq_of_cons_eq ((asksDelta delta rfl).symm.trans asks)
          exact absurd asked same

/-- Two edits are answered under the id of the first answer, and one fails in between. -/
theorem leads_on_of_same_id_retried :
    let start : Workspace := ⟨.standard, ⟨[], []⟩, [], .empty⟩
    let word := Push.token ⟨0, 0, 3, 0, 0⟩
    let second := Push.token ⟨1, 0, 2, 0, 0⟩
    let broken : Span := ⟨⟨1, 4⟩, ⟨2, 0⟩⟩
    let front : List (FreshIds × Call) := [(⟨"a", "b"⟩, .part "left" broken [word])]
    let first : FreshIds × Call := (⟨"c", "d"⟩, .full "left" [word])
    let middle : List (FreshIds × Call) :=
      [(⟨"e", "f"⟩, .fullDelta "left" "d" [word, second]),
        (⟨"g", "h"⟩, .fullDelta "left" "d" [.encodedSpan broken 0 0]),
        (⟨"i", "j"⟩, .fullDelta "right" "d" [word])]
    let last : FreshIds × Call := (⟨"k", "l"⟩, .fullDelta "left" "d" [second])
    let calls := front ++ first :: (middle ++ [last])
    let held := (start.run (front ++ [first])).2
    start.sessions = [] ∧ (∀ turn ∈ middle, turn.2.isStep = false) ∧
      (start.allDrawn calls).Nodup ∧ held.ShortIn "left" (middle ++ [last]) ∧
      (start.run front).2.answersFor "left" [first] = [.full ⟨"d", [0, 0, 3, 0, 0]⟩] ∧
      (start.run (front ++ first :: middle)).2.answersFor "left" [last] =
        [.delta ⟨"d", [⟨0, 5, []⟩]⟩] ∧
      (∃ deltas, held.answersFor "left" (middle ++ [last]) = deltas.map .delta ∧
        (∀ delta ∈ deltas, delta.resultId = "d") ∧
        Delta.applyInTurn [0, 0, 3, 0, 0] deltas = .ok [1, 0, 2, 0, 0]) ∧
      ∃ sent patched, held.answersFor "left" middle = sent.map .delta ∧
        Delta.applyInTurn [0, 0, 3, 0, 0] sent = .ok patched ∧
        Edit.applyAll patched [⟨0, 5, []⟩] = .ok [1, 0, 2, 0, 0] := by
  intro start word second broken front first middle last calls held
  have direct : ∀ turn ∈ middle, turn.2.isStep = false := by decide
  have once : (start.allDrawn calls).Nodup := by decide +kernel
  have short : held.ShortIn "left" (middle ++ [last]) := by
    intro done part
    rw [← List.mem_inits] at part
    revert part done
    decide +kernel
  have told : (start.run front).2.answersFor "left" [first] =
      [.full ⟨"d", [0, 0, 3, 0, 0]⟩] := by decide +kernel
  have again : (start.run (front ++ first :: middle)).2.answersFor "left" [last] =
      [.delta ⟨"d", [⟨0, 5, []⟩]⟩] := by decide +kernel
  have before : held.dataOf "left" = [0, 0, 3, 0, 0] := by decide +kernel
  have after : (start.run calls).2.dataOf "left" = [1, 0, 2, 0, 0] := by decide +kernel
  have blank : start.sessions = [] := rfl
  obtain ⟨_, leads, retried⟩ := leads_on_of_same_id blank direct once told again
  refine ⟨blank, direct, once, short, told, again, ?_, ?_⟩
  · obtain ⟨deltas, answered, named, patched⟩ := leads rfl
    rw [before, after] at patched
    exact ⟨deltas, answered, named, patched short⟩
  · rcases retried rfl with ⟨_, impossible, _⟩ | ⟨_, sent, same, _, answered, _, fits⟩
    · cases impossible
    · cases same
      obtain ⟨patched, patches, leadsOn⟩ := fits short
      rw [before] at patches
      rw [after] at leadsOn
      exact ⟨sent, patched, answered, patches, leadsOn⟩

/-- Two arrays are answered under one id. Who has lost the second of the answers and asks again with
the id is sent a delta that does not fit the array of the first. -/
theorem same_id_other_data :
    let start : Workspace := ⟨.standard, ⟨[], []⟩, [], .empty⟩
    let word := Push.token ⟨0, 0, 3, 0, 0⟩
    let second := Push.token ⟨1, 0, 2, 0, 0⟩
    let first : FreshIds × Call := (⟨"a", "b"⟩, .full "left" [word])
    let lost : FreshIds × Call := (⟨"c", "d"⟩, .fullDelta "left" "b" [word, second])
    let retry : FreshIds × Call := (⟨"e", "f"⟩, .fullDelta "left" "b" [word])
    (∀ turn ∈ [first, lost, retry], turn.2.isStep = false ∧ turn.2.InOrder start.legend) ∧
      (start.allDrawn [first, lost, retry]).Nodup ∧
      start.answersFor "left" [first, lost, retry] =
        [.full ⟨"b", [0, 0, 3, 0, 0]⟩, .delta ⟨"b", [⟨5, 0, [1, 0, 2, 0, 0]⟩]⟩,
          .delta ⟨"b", [⟨5, 5, []⟩]⟩] ∧
      (start.run [first]).2.dataOf "left" = [0, 0, 3, 0, 0] ∧
      (start.run [first, lost]).2.dataOf "left" = [0, 0, 3, 0, 0, 1, 0, 2, 0, 0] ∧
      Edit.applyAll [0, 0, 3, 0, 0] [⟨5, 5, []⟩] = .error (.editOutOfBounds 5 5 5) := by
  decide +kernel

end Workspace

end SemanticHighlight
